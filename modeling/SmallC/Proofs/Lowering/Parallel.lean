import SmallC.Proofs.Emission
import SmallC.Proofs.Relocation

/-!
# Lowerings side by side

What a lowering does with the number of labels taken before it, with the offsets of variables and with the positions
in a tree is to pass them on. `Parallel c V x y` says so of two runs: `x` starts some labels further on, it finds the
variables at other displacements, and it lowers a tree with other positions. Unless it runs out of labels it comes to
what `y` comes to, changed by `c`.
-/
namespace SmallC

namespace Assembly

namespace Labels

/-- The number of a label; other symbols have none. -/
def number? (symbol : String) : Option Nat :=
  let number := Nat.ofDigitChars 10 (symbol.toList.drop "_label".length) 0
  if name number = symbol then some number else none

theorem number?_name (n : Nat) : number? (name n) = some n := by
  have hdigits : (name n).toList.drop "_label".length = Nat.toDigits 10 n := by
    rw [name, String.toList_append, show toString n = Nat.repr n from rfl, Nat.toList_repr]
    exact List.drop_left
  rw [number?, hdigits, Nat.ofDigitChars_ten_toDigits]
  exact if_pos rfl

theorem name_of_number? {symbol : String} {n : Nat} (h : number? symbol = some n) : symbol = name n := by
  unfold number? at h
  dsimp only at h
  split at h
  · next hname =>
    cases h
    exact hname.symm
  · exact nomatch h

/-- Adds to the number of a label; other symbols stay. -/
def renumber (d : Nat) (symbol : String) : String :=
  match number? symbol with
  | some n => name (n + d)
  | none => symbol

theorem renumber_name (d n : Nat) : renumber d (name n) = name (n + d) := by
  unfold renumber
  rw [number?_name]

theorem renumber_of_ne_name {symbol : String} (d : Nat) (h : ∀ n, symbol ≠ name n) :
    renumber d symbol = symbol := by
  unfold renumber
  cases hn : number? symbol with
  | some n => exact absurd (name_of_number? hn) (h n)
  | none => rfl

theorem renumber_zero (symbol : String) : renumber 0 symbol = symbol := by
  unfold renumber
  cases hn : number? symbol with
  | some n => exact (name_of_number? hn).symm
  | none => rfl

/-- The same labels handed out, with another limit. -/
def within (l : Labels) (limit : Nat) : Labels :=
  { l with limit }

end Labels

/-- Changes the displacement of a word in memory. -/
def Operand.displace (g : Int → Int) : Operand → Operand
  | .mem displacement base => .mem (g displacement) base
  | op => op

namespace Instruction

/-- Renumbers the label that an instruction defines or jumps to. -/
def renumber (d : Nat) : Instruction → Instruction
  | .label symbol => .label (Labels.renumber d symbol)
  | .jmp symbol => .jmp (Labels.renumber d symbol)
  | .jcc c symbol => .jcc c (Labels.renumber d symbol)
  | i => i

theorem renumber_zero (i : Instruction) : i.renumber 0 = i := by
  cases i <;> simp only [renumber, Labels.renumber_zero]

/-- Changes the displacements of its operands. -/
def displace (g : Int → Int) : Instruction → Instruction
  | .movl src dst => .movl (src.displace g) (dst.displace g)
  | .pushl op => .pushl (op.displace g)
  | .addl src dst => .addl (src.displace g) (dst.displace g)
  | .subl src dst => .subl (src.displace g) (dst.displace g)
  | .imull src dst => .imull (src.displace g) dst
  | .idivl op => .idivl (op.displace g)
  | .negl op => .negl (op.displace g)
  | .incl op => .incl (op.displace g)
  | .decl op => .decl (op.displace g)
  | .andl src dst => .andl (src.displace g) (dst.displace g)
  | .orl src dst => .orl (src.displace g) (dst.displace g)
  | .xorl src dst => .xorl (src.displace g) (dst.displace g)
  | .notl op => .notl (op.displace g)
  | .sall count dst => .sall count (dst.displace g)
  | .sarl count dst => .sarl count (dst.displace g)
  | .cmpl src dst => .cmpl (src.displace g) (dst.displace g)
  | i => i

theorem displace_id (i : Instruction) : i.displace id = i := by
  have hoperand : ∀ op : Operand, op.displace id = op := by
    intro op
    cases op <;> rfl
  cases i <;> simp only [displace, hoperand]

end Instruction

end Assembly

variable {φ : Position → Position}

theorem Expr.pos_relocate (e : Expr) : (e.relocate φ).pos = φ e.pos := by
  cases e <;> rfl

theorem Expr.var?_relocate (e : Expr) : (e.relocate φ).var? = e.var? := by
  cases e <;> rfl

namespace Lowering

open Assembly

/-- In what one lowering differs from another. -/
structure Change where
  /-- How many more labels were taken before it. -/
  distance : Nat := 0
  /-- Where it has the words of the frame. -/
  displace : Int → Int := id
  /-- Where it has the nodes of the tree. -/
  move : Position → Position := id

namespace Change

def instruction (c : Change) (i : Instruction) : Instruction :=
  (i.displace c.displace).renumber c.distance

theorem instruction_renumber {c : Change} (h : c.displace = id) : c.instruction = (·.renumber c.distance) := by
  funext i
  rw [instruction, h, Instruction.displace_id]

theorem instruction_displace {c : Change} (h : c.distance = 0) : c.instruction = (·.displace c.displace) := by
  funext i
  rw [instruction, h, Instruction.renumber_zero]

def fault (c : Change) : Fault → Fault :=
  Fault.relocate c.move

/-- A value on each side, or the same fault. -/
def Alike {α β : Type} (c : Change) (V : α → β → Prop) : Except Fault α → Except Fault β → Prop
  | .ok a, .ok b => V a b
  | .error fault, .error other => fault = c.fault other
  | _, _ => False

end Change

namespace Emit

variable {α β γ δ : Type} {c : Change} {V : α → β → Prop} {U : γ → δ → Prop} {x : Emit α} {y : Emit β}
  {f : α → Emit γ} {g : β → Emit δ} {l : Labels}

theorem result_ne_of_bind {fault : Fault} (h : ((x >>= f) l).result ≠ .error fault) :
    (x l).result ≠ .error fault := by
  intro hx
  rcases hl : x l with ⟨result, code, faults, l'⟩
  rw [hl] at hx
  cases hx
  rw [bind_of_error hl] at h
  exact h rfl

/-- The lowerings do the same, changed by `c`. That the first one runs out of labels is of no account where the second
one has as many left. -/
def Parallel (c : Change) (V : α → β → Prop) (x : Emit α) (y : Emit β) : Prop :=
  ∀ (l : Labels) (limit : Nat), l.limit ≤ limit + c.distance →
    l.limit = limit + c.distance ∨ (x (l.skip c.distance)).result ≠ .error .noLabel →
    ∃ result result' code faults n,
      x (l.skip c.distance) =
        ⟨result, code.map c.instruction, faults.map c.fault, (l.skip n).skip c.distance⟩ ∧
      y (l.within limit) = ⟨result', code, faults, (l.skip n).within limit⟩ ∧ c.Alike V result result'

theorem parallel_pure {a : α} {b : β} (h : V a b) : Parallel c V (Pure.pure a) (Pure.pure b) :=
  fun _ _ _ _ => ⟨.ok a, .ok b, [], [], 0, rfl, rfl, h⟩

theorem parallel_stop (fault : Fault) : Parallel c V (stop (c.fault fault)) (stop fault) :=
  fun _ _ _ _ => ⟨.error _, .error fault, [], [], 0, rfl, rfl, rfl⟩

theorem parallel_report (fault : Fault) : Parallel c (fun _ _ => True) (report (c.fault fault)) (report fault) :=
  fun _ _ _ _ => ⟨.ok (), .ok (), [], [fault], 0, rfl, rfl, trivial⟩

theorem parallel_emit {code block : List Instruction} (h : code = block.map c.instruction) :
    Parallel c (fun _ _ => True) (emit code) (emit block) := by
  subst h
  exact fun _ _ _ _ => ⟨.ok (), .ok (), block, [], 0, rfl, rfl, trivial⟩

/-- Both are given a label with the same number, up to the distance. -/
theorem parallel_freshLabel :
    Parallel c (fun symbol other => symbol = Labels.renumber c.distance other) freshLabel freshLabel := by
  intro l limit hlimit hout
  by_cases hlt : l.count + c.distance < l.limit
  · have hx : freshLabel (l.skip c.distance) = _ := freshLabel_eq hlt
    have hy : freshLabel (l.within limit) = _ := freshLabel_eq (show l.count < limit by omega)
    refine ⟨.ok (Labels.name (l.count + c.distance)), .ok (Labels.name l.count), [], [], 1, hx.trans ?_, hy,
      (Labels.renumber_name _ _).symm⟩
    rw [Labels.skip_skip, Labels.skip_skip, Nat.add_comm]
    rfl
  · have hx : freshLabel (l.skip c.distance) = _ := freshLabel_eq_error hlt
    rw [hx] at hout
    have hlimit := hout.resolve_right (fun hne => hne rfl)
    have hy : freshLabel (l.within limit) = _ := freshLabel_eq_error (show ¬ l.count < limit by omega)
    exact ⟨_, _, [], [], 0, hx, hy, rfl⟩

theorem Parallel.bind (h : Parallel c V x y) (hf : ∀ a b, V a b → Parallel c U (f a) (g b)) :
    Parallel c U (x >>= f) (y >>= g) := by
  intro l limit hlimit hout
  obtain ⟨result, result', code, faults, n, hx, hy, halike⟩ :=
    h l limit hlimit (hout.imp_right result_ne_of_bind)
  match result, result', halike with
  | .error _, .error fault, hfault =>
    exact ⟨_, .error fault, code, faults, n, bind_of_error hx, bind_of_error hy, hfault⟩
  | .ok a, .ok b, hV =>
    rw [bind_of_ok hx] at hout
    obtain ⟨result, result', more, faults', m, hx', hy', halike⟩ := hf a b hV (l.skip n) limit hlimit hout
    refine ⟨result, result', code ++ more, faults ++ faults', n + m, ?_, ?_, halike⟩
    · rw [bind_of_ok hx, hx', List.map_append, List.map_append, l.skip_skip n m]
    · rw [bind_of_ok hy, hy', l.skip_skip n m]

/-- Lowerings that are no labels apart come to the same in any case. -/
theorem Parallel.eq {x y : Emit Unit} {V : Unit → Unit → Prop} (h : Parallel c V x y) (hc : c.distance = 0)
    (l : Labels) :
    x l = ⟨(y l).result.mapError c.fault, (y l).code.map c.instruction, (y l).faults.map c.fault,
      (y l).labels⟩ := by
  obtain ⟨result, result', code, faults, n, hx, hy, halike⟩ :=
    h l l.limit (Nat.le_add_right _ _) (.inl (by rw [hc]; rfl))
  have hx : x l = ⟨result, code.map c.instruction, faults.map c.fault, l.skip n⟩ := by
    rw [hc] at hx
    exact hx
  have hy : y l = ⟨result', code, faults, l.skip n⟩ := hy
  rw [hx, hy]
  match result, result', halike with
  | .error _, .error _, hfault => rw [hfault]; rfl
  | .ok _, .ok _, _ => rfl

end Emit

open Emit

variable {Frame : Type} [Layout Frame] {c : Change} {R : Frame → Slots → Prop}

/-- A way to keep track of slots by which the variables are at other displacements. -/
structure Mirrors (c : Change) (R : Frame → Slots → Prop) : Prop where
  offset? : ∀ {frame slots}, R frame slots → ∀ name,
    Layout.offset? frame name = (slots.offset? name).map c.displace
  declare : ∀ {frame slots}, R frame slots → ∀ name, R (Layout.declare frame name) (slots.declare name)
  zero : c.displace 0 = 0

variable {frame : Frame} {slots : Slots}

theorem parallel_variableSlot (h : Mirrors c R) (hR : R frame slots) (name : String) (pos : Position) :
    Parallel c (fun slot other => slot = other.displace c.displace) (variableSlot frame name (c.move pos))
      (variableSlot slots name pos) := by
  have hslots : Layout.offset? slots name = slots.offset? name := rfl
  unfold variableSlot
  rw [h.offset? hR name, hslots]
  cases slots.offset? name with
  | some offset => exact parallel_pure rfl
  | none => exact parallel_stop (.undefined name pos)

theorem parallel_targetSlot (h : Mirrors c R) (hR : R frame slots) (target : Expr) :
    Parallel c (fun slot other => slot = other.displace c.displace)
      (targetSlot frame (target.relocate c.move)) (targetSlot slots target) := by
  unfold targetSlot
  rw [Expr.var?_relocate, Expr.pos_relocate]
  cases target.var? with
  | some name => exact parallel_variableSlot h hR name target.pos
  | none =>
    refine (parallel_report (.notAssignable target.pos)).bind fun _ _ _ => parallel_pure ?_
    exact congrArg (Operand.mem · .ebp) h.zero.symm

theorem parallel_shortCircuit {x x' y y' : Emit Unit} (isAnd : Bool) (hl : Parallel c (fun _ _ => True) x x')
    (hr : Parallel c (fun _ _ => True) y y') :
    Parallel c (fun _ _ => True) (shortCircuit isAnd x y) (shortCircuit isAnd x' y') := by
  unfold shortCircuit
  refine parallel_freshLabel.bind fun _ skipped hskipped => parallel_freshLabel.bind fun _ finish hfinish => ?_
  subst hskipped hfinish
  refine hl.bind fun _ _ _ => Parallel.bind (parallel_emit ?_) fun _ _ _ =>
    hr.bind fun _ _ _ => parallel_emit rfl
  cases isAnd <;> rfl

theorem map_arith (op : ArithOp) : op.code = op.code.map c.instruction := by
  cases op <;> rfl

theorem map_store (slot : Operand) (op : AssignOp) :
    store (slot.displace c.displace) op = (store slot op).map c.instruction := by
  cases op with
  | plain => rfl
  | compound op =>
    rw [store, store, List.map_append, List.map_append, ← map_arith]
    rfl

theorem parallel_expr (h : Mirrors c R) (hR : R frame slots) (e : Expr) :
    Parallel c (fun _ _ => True) (expr frame (e.relocate c.move)) (expr slots e) := by
  induction e with
  | number digits pos => exact parallel_emit rfl
  | var name pos =>
    refine (parallel_variableSlot h hR name pos).bind fun _ slot hslot => ?_
    subst hslot
    exact parallel_emit rfl
  | unary op operand pos ih =>
    cases op with
    | neg | bitNot | logNot => exact ih.bind fun _ _ _ => parallel_emit rfl
    | before op | after op =>
      refine (parallel_targetSlot h hR operand).bind fun _ slot hslot => ?_
      subst hslot
      cases op <;> exact parallel_emit rfl
  | binary op left right pos ihl ihr =>
    cases op with
    | comma => exact ihl.bind fun _ _ _ => ihr
    | logAnd => exact parallel_shortCircuit true ihl ihr
    | logOr => exact parallel_shortCircuit false ihl ihr
    | arith op =>
      refine ihr.bind fun _ _ _ => Parallel.bind (parallel_emit rfl) fun _ _ _ =>
        ihl.bind fun _ _ _ => parallel_emit ?_
      exact congrArg (List.cons _) (map_arith op)
    | compare op =>
      exact ihr.bind fun _ _ _ => Parallel.bind (parallel_emit rfl) fun _ _ _ =>
        ihl.bind fun _ _ _ => parallel_emit rfl
  | assign op target value pos _ ih =>
    refine (parallel_targetSlot h hR target).bind fun _ slot hslot => ?_
    subst hslot
    exact ih.bind fun _ _ _ => parallel_emit (map_store slot op)

theorem parallel_initial (h : Mirrors c R) (hR : R frame slots) (init : Option Expr) :
    Parallel c (fun _ _ => True) (initial frame (init.map (Expr.relocate c.move))) (initial slots init) := by
  cases init with
  | none => exact parallel_pure trivial
  | some value => exact parallel_expr h hR value

mutual

theorem parallel_stmt (h : Mirrors c R) : ∀ (s : Stmt) {frame : Frame} {slots : Slots}, R frame slots →
    Parallel c R (stmt frame (s.relocate c.move)) (stmt slots s)
  | .block body _, frame, slots, hR => by
    rw [Stmt.relocate, stmt, stmt]
    exact parallel_stmts h body hR
  | .returns value _, frame, slots, hR => by
    rw [Stmt.relocate, stmt, stmt]
    exact (parallel_expr h hR value).bind fun _ _ _ => Parallel.bind (parallel_emit rfl) fun _ _ _ =>
      parallel_pure hR
  | .expr value _, frame, slots, hR => by
    rw [Stmt.relocate, stmt, stmt]
    exact (parallel_expr h hR value).bind fun _ _ _ => parallel_pure hR
  | .declare _ name init pos, frame, slots, hR => by
    rw [Stmt.relocate, stmt, stmt, h.offset? hR name, Option.isSome_map]
    change Parallel c R _ (if (slots.offset? name).isSome = true then _ else _)
    split
    · exact (parallel_report (.redefined name pos)).bind fun _ _ _ => parallel_pure hR
    · exact (parallel_initial h hR init).bind fun _ _ _ => Parallel.bind (parallel_emit rfl) fun _ _ _ =>
        parallel_pure (h.declare hR name)

theorem parallel_stmts (h : Mirrors c R) : ∀ (body : List Stmt) {frame : Frame} {slots : Slots}, R frame slots →
    Parallel c R (stmts frame (Stmt.relocateAll c.move body)) (stmts slots body)
  | [], frame, slots, hR => by
    rw [Stmt.relocateAll, stmts, stmts]
    exact parallel_pure hR
  | s :: more, frame, slots, hR => by
    rw [Stmt.relocateAll, stmts, stmts]
    exact (parallel_stmt h s hR).bind fun _ _ hnext => parallel_stmts h more hnext

end

theorem relocateAll_eq_map (body : List Stmt) : Stmt.relocateAll φ body = body.map (Stmt.relocate φ) := by
  induction body with
  | nil => rfl
  | cons s more ih => rw [Stmt.relocateAll, ih, List.map_cons]

theorem endsWithReturn_relocate (body : List Stmt) :
    endsWithReturn (Stmt.relocateAll φ body) = endsWithReturn body := by
  unfold endsWithReturn
  rw [relocateAll_eq_map, List.getLast?_map]
  cases body.getLast? with
  | none => rfl
  | some s => cases s <;> rfl

/-- The name of the function is a symbol of its code, so it must not be taken for a label. -/
theorem parallel_functionBody (h : Mirrors c R) (hR : R frame {}) {f : Function}
    (hname : Labels.renumber c.distance f.name = f.name) :
    Parallel c (fun _ _ => True) (functionBody frame (f.relocate c.move)) (functionBody ({} : Slots) f) := by
  have hentry : c.instruction (.label f.name) = .label f.name := congrArg Instruction.label hname
  refine Parallel.bind (parallel_emit ?_) fun _ _ _ => (parallel_stmts h f.body.body hR).bind fun _ _ _ => ?_
  · rw [List.map_append, List.map_cons, List.map_cons, hentry]
    rfl
  · refine Parallel.bind (parallel_emit ?_) fun _ _ _ => parallel_emit rfl
    have hend : endsWithReturn (f.relocate c.move).body.body = endsWithReturn f.body.body :=
      endsWithReturn_relocate f.body.body
    rw [hend]
    split <;> rfl

/-- Slots are tracked as they are. -/
theorem mirrors_eq {c : Change} (h : c.displace = id) : Mirrors c (@Eq Slots) where
  offset? hR name := by
    subst hR
    rw [h, Option.map_id, id]
    rfl
  declare hR name := by
    subst hR
    rfl
  zero := by rw [h, id]

end Lowering

end SmallC
