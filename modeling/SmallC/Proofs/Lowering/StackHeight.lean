import Mathlib
import SmallC.Proofs.Lowering.Jumps

/-!
# Words on the stack

How many words a function has on the stack below its frame pointer can be counted along the text of its body. An
expression leaves the count as it is and works above it, whatever it is, so the temporaries stand below all the
variables. A declaration leaves one word more, and that is the slot of its variable. Between two statements there
is a word for each variable declared so far and nothing else.
-/
namespace SmallC

open Assembly
open Machine (labels)

namespace Assembly

namespace Instruction

/-- The words on the stack behind an instruction. The pop of the frame pointer is part of leaving the function:
the text behind it is not reached from there, and the count goes on as before. -/
def heightAfter (n : Nat) : Instruction → Nat
  | .pushl _ => n + 1
  | .popl .ebp => n
  | .popl _ => n - 1
  | _ => n

theorem heightAfter_of_isWork {i : Instruction} (h : i.isWork = true) (m : Nat) : i.heightAfter m = m := by
  cases i <;> first | rfl | cases h

end Instruction

/-- An operand in memory is one of the first `n` slots. -/
def Operand.InFrame (n : Nat) : Operand → Prop
  | .mem displacement base => base = .ebp ∧ ∃ j : Nat, 1 ≤ j ∧ j ≤ n ∧ displacement = -4 * j
  | _ => True

/-- The displacement of one of the first `n` slots. -/
def InSlots (n : Nat) (displacement : Int) : Prop :=
  ∃ j : Nat, 1 ≤ j ∧ j ≤ n ∧ displacement = -4 * j

theorem Operand.Known.inFrame {W : String → Prop} {n : Nat} {op : Operand} (h : op.Known W (InSlots n)) :
    op.InFrame n := by
  cases op with
  | mem displacement base => exact h
  | reg | imm | literal => trivial

theorem Slots.inSlots {slots : Slots} {name : String} {offset : Int} (h : slots.offset? name = some offset) :
    InSlots slots.size offset := by
  obtain ⟨i, hi, rfl⟩ := Option.map_eq_some_iff.1 h
  have hlt : i < slots.names.length := by
    obtain ⟨hlt, -⟩ := List.findIdx?_eq_some_iff_getElem.1 hi
    exact hlt
  exact ⟨i + 1, by omega, hlt, by simp [Slots.offsetAt]⟩

end Assembly

namespace Lowering

open Emit

/-- The words on the stack behind the code. -/
def heightAfter (n : Nat) (code : List Instruction) : Nat :=
  code.foldl Instruction.heightAfter n

@[simp] theorem heightAfter_nil (n : Nat) : heightAfter n [] = n :=
  rfl

@[simp] theorem heightAfter_cons (n : Nat) (i : Instruction) (code : List Instruction) :
    heightAfter n (i :: code) = heightAfter (i.heightAfter n) code :=
  rfl

@[simp] theorem heightAfter_append (n : Nat) (code block : List Instruction) :
    heightAfter n (code ++ block) = heightAfter (heightAfter n code) block :=
  List.foldl_append

/-- With `n` variables and `m` words on the stack, the instruction keeps off the slots of the variables: it takes
no word of theirs off the stack, and it names no word that is not theirs. -/
structure Fits (n m : Nat) (i : Instruction) : Prop where
  above : n ≤ m
  pops : ∀ r, i = .popl r → (r = .ebx ∨ r = .ecx) ∧ n < m
  operands : ∀ op ∈ i.operands, op.InFrame n

/-- The label stands in the code with `c` words on the stack. -/
def LabelledAt (name : String) (c m : Nat) (code : List Instruction) : Prop :=
  ∃ before after, code = before ++ .label name :: after ∧ heightAfter m before = c

/-- Every instruction fits, and every jump goes forward to a label with as many words on the stack. -/
def Disciplined (n : Nat) : Nat → List Instruction → Prop
  | _, [] => True
  | m, i :: code =>
    Fits n m i ∧ (∀ name ∈ i.target?, LabelledAt name m (i.heightAfter m) code) ∧
      Disciplined n (i.heightAfter m) code

section Code

variable {n m : Nat} {i : Instruction} {code block : List Instruction}

theorem fits_plain (h : n ≤ m) (hpop : ∀ r, i ≠ .popl r) (hop : i.operands = []) : Fits n m i :=
  ⟨h, fun r hr => absurd hr (hpop r), by simp [hop]⟩

theorem fits_push (h : n ≤ m) : Fits n m (.pushl accumulator) :=
  ⟨h, by simp, by simp [Instruction.operands, accumulator, Operand.InFrame]⟩

theorem fits_of_works {W : String → Prop} (h : n ≤ m) (hi : Works W (InSlots n) i) : Fits n m i := by
  refine ⟨h, fun r hr => ?_, fun op hop => (hi.2 op hop).inFrame⟩
  subst hr
  cases hi.1

theorem Disciplined.append (h : Disciplined n m code) (h' : Disciplined n (heightAfter m code) block) :
    Disciplined n m (code ++ block) := by
  induction code generalizing m with
  | nil => exact h'
  | cons i code ih =>
    obtain ⟨hfits, hjumps, hrest⟩ := h
    refine ⟨hfits, fun name hname => ?_, ih hrest h'⟩
    obtain ⟨before, after, rfl, hheight⟩ := hjumps name hname
    exact ⟨before, after ++ block, List.append_assoc .., hheight⟩

theorem Disciplined.split (h : Disciplined n m code) {before after : List Instruction}
    (hsplit : code = before ++ i :: after) :
    Fits n (heightAfter m before) i ∧
      ∀ name ∈ i.target?, LabelledAt name (heightAfter m before) (heightAfter m (before ++ [i])) after := by
  subst hsplit
  induction before generalizing m with
  | nil => exact ⟨h.1, h.2.1⟩
  | cons j before ih => exact ih h.2.2

/-- Code for which it does not matter how many words are on the stack: it leaves as many. -/
structure Settled (n : Nat) (code : List Instruction) : Prop where
  height : ∀ m, heightAfter m code = m
  disciplined : ∀ m, n ≤ m → Disciplined n m code

/-- Code that is run from its start to its end, without a word on the stack. -/
theorem settled_of_works {W : String → Prop} (h : ∀ i ∈ code, Works W (InSlots n) i) : Settled n code := by
  induction code with
  | nil => exact ⟨fun _ => rfl, fun _ _ => trivial⟩
  | cons i code ih =>
    obtain ⟨hi, hcode⟩ := List.forall_mem_cons.1 h
    have hheight := Instruction.heightAfter_of_isWork hi.1
    have hrest := ih hcode
    constructor
    · intro m
      rw [heightAfter_cons, hheight, hrest.height]
    · intro m hm
      refine ⟨fits_of_works hm hi, ?_, ?_⟩
      · simp [hi.target?_eq_none]
      · rw [hheight]
        exact hrest.disciplined m hm

theorem settled_label (name : String) : Settled n [.label name] :=
  ⟨fun _ => rfl, fun _ hm => ⟨fits_plain hm (by simp) rfl, nofun, trivial⟩⟩

theorem Settled.append (h : Settled n code) (h' : Settled n block) : Settled n (code ++ block) := by
  constructor
  · intro m
    rw [heightAfter_append, h.height, h'.height]
  · intro m hm
    refine (h.disciplined m hm).append ?_
    rw [h.height]
    exact h'.disciplined m hm

/-- The right operand stands on the stack while the left one is worked on. -/
theorem settled_operands {left right : List Instruction} {r : Register} (hleft : Settled n left)
    (hright : Settled n right) (hr : r = .ebx ∨ r = .ecx) (hlast : Settled n code) :
    Settled n (right ++ ([.pushl accumulator] ++ (left ++ (.popl r :: code)))) := by
  have hpop : ∀ m, (Instruction.popl r).heightAfter (m + 1) = m := by
    rcases hr with rfl | rfl <;> exact fun _ => rfl
  constructor
  · intro m
    have hpush : (Instruction.pushl accumulator).heightAfter m = m + 1 := rfl
    simp [hright.height, hleft.height, hlast.height, hpush, hpop]
  · intro m hm
    -- the word that is popped stands above the variables, since it was pushed with `n ≤ m` words there
    have hafter : Disciplined n (m + 1) (.popl r :: code) := by
      refine ⟨⟨by omega, fun r' hr' => ?_, by simp [Instruction.operands]⟩, by simp [Instruction.target?], ?_⟩
      · cases hr'
        exact ⟨hr, by omega⟩
      · rw [hpop]
        exact hlast.disciplined m hm
    have hinside : Disciplined n (m + 1) (left ++ (.popl r :: code)) := by
      apply (hleft.disciplined (m + 1) (by omega)).append
      rwa [hleft.height]
    apply (hright.disciplined m hm).append
    rw [hright.height]
    exact ⟨fits_push hm, by simp [Instruction.target?], hinside⟩

/-- Both labels of a logical operator stand where the stack is as high as at the jumps to them. -/
theorem settled_shortCircuit {first second : List Instruction} (isAnd : Bool) (right finish : String)
    (hfirst : Settled n first) (hsecond : Settled n second) :
    Settled n (first ++ (branch isAnd right finish ++ [.label right] ++
      (second ++ (toBoolean ++ [.label finish])))) := by
  have hboolean : Settled n toBoolean :=
    settled_of_works (W := fun _ => True) (works_truth .notEqual (Operand.known_imm 0))
  -- what stands behind the jumps, from the label of the right operand on
  let rest := [.label right] ++ (second ++ (toBoolean ++ [.label finish]))
  have hrest : Settled n rest := (settled_label right).append (hsecond.append (hboolean.append (settled_label finish)))
  have hright : ∀ m code, heightAfter m code = m → LabelledAt right m m (code ++ rest) :=
    fun m code hcode => ⟨code, _, rfl, hcode⟩
  have hfinish : ∀ m, LabelledAt finish m m rest := by
    intro m
    refine ⟨.label right :: (second ++ toBoolean), [], by simp [rest], ?_⟩
    simp [hsecond.height, hboolean.height, Instruction.heightAfter]
  suffices hbranch : Settled n (branch isAnd right finish ++ rest) by
    rw [List.append_assoc]
    exact hfirst.append hbranch
  constructor
  · intro m
    cases isAnd <;> exact hrest.height m
  · intro m hm
    have hcompare : Fits n m (.cmpl (.imm 0) accumulator) :=
      fits_of_works (W := fun _ => True) hm ⟨rfl, by simp [Instruction.operands]⟩
    have hset : Fits n m (.movl (.imm 1) accumulator) :=
      fits_of_works (W := fun _ => True) hm ⟨rfl, by simp [Instruction.operands]⟩
    have hjump : ∀ c, Fits n m (.jcc c right) := fun c => fits_plain hm (by simp) rfl
    have hskip : Fits n m (.jmp finish) := fits_plain hm (by simp) rfl
    have hlast : Disciplined n m (.jmp finish :: rest) := by
      refine ⟨hskip, ?_, hrest.disciplined m hm⟩
      rintro name ⟨⟩
      exact hfinish m
    cases isAnd with
    | true =>
      refine ⟨hcompare, by simp [Instruction.target?], hjump _, ?_, hlast⟩
      rintro name ⟨⟩
      exact hright m [.jmp finish] rfl
    | false =>
      refine ⟨hcompare, by simp [Instruction.target?], hjump _, ?_, hset, by simp [Instruction.target?], hlast⟩
      rintro name ⟨⟩
      exact hright m [.movl (.imm 1) accumulator, .jmp finish] rfl

theorem Woven.settled {W : String → Prop} {first k : Nat} (h : Woven (Works W (InSlots n)) first k code) :
    Settled n code := by
  induction h with
  | block h => exact settled_of_works h
  | append _ _ ih ih' => exact ih.append ih'
  | operands _ _ hr h ih ih' => exact settled_operands ih' ih hr (settled_of_works h)
  | logical isAnd _ _ ih ih' => exact settled_shortCircuit isAnd _ _ ih ih'

end Code

theorem tracks_names (slots : Slots) : Tracks slots (slots.names.map .declaration) := by
  intro name
  simp

/-- In an expression without faults no other words of the frame are worked on than the slots of variables. -/
theorem woven_expr {slots : Slots} {e : Expr} {l l' : Labels} {code : List Instruction}
    (hy : (expr slots e).Yields l () code l') :
    Woven (Works (fun _ => True) (InSlots slots.size)) l.count (2 * e.logicals) code := by
  have htracks := tracks_names slots
  have hwords : ∀ word ∈ e.spellings, (fun _ : String => True) word := fun _ _ => trivial
  obtain ⟨hscoped, -⟩ := (account_plain htracks e hwords).of_yields hy
  have hslots : Setting (fun _ => True) (InSlots slots.size) (Works (fun _ => True) (InSlots slots.size)) slots _ :=
    ⟨htracks, fun _ _ => Slots.inSlots, fun _ => id⟩
  exact ((account_expr hslots e hwords (.inl hscoped)).of_yields hy).2.2

theorem woven_initial {slots : Slots} {init : Option Expr} {l l' : Labels} {code : List Instruction}
    (hy : (initial slots init).Yields l () code l') :
    ∃ n, Woven (Works (fun _ => True) (InSlots slots.size)) l.count n code := by
  cases init with
  | none =>
    obtain ⟨-, rfl, -⟩ := pure_yields.1 hy
    exact ⟨0, .block (List.forall_mem_nil _)⟩
  | some value => exact ⟨_, woven_expr hy⟩

end Lowering

mutual

/-- The statement, or what stands in its blocks. -/
def Stmt.flat : Stmt → List Stmt
  | .block body _ => Stmt.flatAll body
  | .returns value pos => [.returns value pos]
  | .expr value pos => [.expr value pos]
  | .declare type name init pos => [.declare type name init pos]

def Stmt.flatAll : List Stmt → List Stmt
  | [] => []
  | s :: more => s.flat ++ Stmt.flatAll more

end

namespace Stmt

def isBlock : Stmt → Bool
  | .block _ _ => true
  | _ => false

/-- The variable that the statement itself declares. -/
def declared? : Stmt → Option String
  | .declare _ name _ _ => some name
  | _ => none

mutual

theorem isBlock_of_mem_flat : ∀ {s t : Stmt}, t ∈ s.flat → t.isBlock = false
  | .block body _, _, h => isBlock_of_mem_flatAll h
  | .returns _ _, _, h => by
    rw [List.mem_singleton.1 h]
    rfl
  | .expr _ _, _, h => by
    rw [List.mem_singleton.1 h]
    rfl
  | .declare _ _ _ _, _, h => by
    rw [List.mem_singleton.1 h]
    rfl

theorem isBlock_of_mem_flatAll : ∀ {body : List Stmt} {t : Stmt}, t ∈ flatAll body → t.isBlock = false
  | s :: more, t, h => by
    rcases List.mem_append.1 h with h | h
    · exact isBlock_of_mem_flat h
    · exact isBlock_of_mem_flatAll h

end

end Stmt

namespace Lowering

open Emit

variable {slots slots' : Slots} {l l' : Labels} {code : List Instruction}

theorem stmts_append_yields {body more : List Stmt} :
    (stmts slots (body ++ more)).Yields l slots' code l' ↔
      ∃ middle first l₁ second, (stmts slots body).Yields l middle first l₁ ∧
        (stmts middle more).Yields l₁ slots' second l' ∧ code = first ++ second := by
  induction body generalizing slots l code with
  | nil =>
    constructor
    · intro h
      exact ⟨slots, [], l, code, rfl, h, rfl⟩
    · rintro ⟨middle, first, l₁, second, hfirst, hsecond, rfl⟩
      obtain ⟨rfl, rfl, rfl⟩ := pure_yields.1 hfirst
      exact hsecond
  | cons s body ih =>
    constructor
    · intro h
      obtain ⟨_, own, _, _, hs, hrest, rfl⟩ := bind_yields.1 h
      obtain ⟨middle, first, l₁, second, hfirst, hsecond, rfl⟩ := ih.1 hrest
      have hboth : (stmts slots (s :: body)).Yields l middle (own ++ first) l₁ :=
        bind_yields.2 ⟨_, _, _, _, hs, hfirst, rfl⟩
      exact ⟨middle, own ++ first, l₁, second, hboth, hsecond, (List.append_assoc ..).symm⟩
    · rintro ⟨middle, first, l₁, second, hfirst, hsecond, rfl⟩
      obtain ⟨_, own, _, rest, hs, hrest, rfl⟩ := bind_yields.1 hfirst
      have hmore := ih.2 ⟨middle, rest, l₁, second, hrest, hsecond, rfl⟩
      exact bind_yields.2 ⟨_, own, _, rest ++ second, hs, hmore, List.append_assoc ..⟩

theorem stmts_singleton_yields {s : Stmt} :
    (stmts slots [s]).Yields l slots' code l' ↔ (stmt slots s).Yields l slots' code l' := by
  constructor
  · intro h
    obtain ⟨_, _, _, _, hs, hnil, rfl⟩ := bind_yields.1 h
    obtain ⟨rfl, rfl, rfl⟩ := pure_yields.1 hnil
    rwa [List.append_nil]
  · intro h
    exact bind_yields.2 ⟨slots', code, l', [], h, rfl, (List.append_nil code).symm⟩

mutual

/-- Blocks leave no trace in the code. -/
theorem stmt_flat_yields : ∀ {s : Stmt} {slots slots' : Slots} {l l' : Labels} {code : List Instruction},
    (stmt slots s).Yields l slots' code l' → (stmts slots s.flat).Yields l slots' code l'
  | .block _ _, _, _, _, _, _, h => stmts_flat_yields h
  | .returns _ _, _, _, _, _, _, h => stmts_singleton_yields.2 h
  | .expr _ _, _, _, _, _, _, h => stmts_singleton_yields.2 h
  | .declare _ _ _ _, _, _, _, _, _, h => stmts_singleton_yields.2 h

theorem stmts_flat_yields : ∀ {body : List Stmt} {slots slots' : Slots} {l l' : Labels}
    {code : List Instruction},
    (stmts slots body).Yields l slots' code l' → (stmts slots (Stmt.flatAll body)).Yields l slots' code l'
  | [], _, _, _, _, _, h => h
  | s :: more, slots, slots', l, l', code, h => by
    obtain ⟨middle, first, l₁, second, hs, hmore, rfl⟩ := bind_yields.1 h
    exact stmts_append_yields.2 ⟨middle, first, l₁, second, stmt_flat_yields hs, stmts_flat_yields hmore, rfl⟩

end

/-- What a statement ends with: a return leaves the function. -/
def exit : Stmt → List Instruction
  | .returns _ _ => leave
  | _ => []

/-- A statement that has the code `inner` and its exit behind the code `first`. There are as many words on the stack
as variables, before it and behind it, and a declaration pushes the word that becomes a slot. -/
structure Orderly (first : List Instruction) (slots : Slots) (s : Stmt) (inner : List Instruction)
    (slots' : Slots) : Prop where
  start : heightAfter 0 first = slots.size
  finish : heightAfter 0 (first ++ (inner ++ exit s)) = slots'.size
  fits : ∀ before i after, inner = before ++ i :: after → Fits slots.size (heightAfter 0 (first ++ before)) i
  jumps : ∀ before i after name, inner = before ++ i :: after → i.target? = some name →
    ∃ between behind, after = between ++ .label name :: behind ∧
      heightAfter 0 (first ++ before) = heightAfter 0 (first ++ before ++ i :: between)
  declares : ∀ name, s.declared? = some name →
    ∃ value, inner = value ++ [.pushl accumulator] ∧ heightAfter 0 (first ++ value) = slots.size ∧
      slots'.size = slots.size + 1 ∧ slots'.offset? name = some (-4 * (slots'.size : Int))

theorem offset?_declare {name : String} (h : name ∉ slots.names) :
    (slots.declare name).offset? name = some (-4 * ((slots.declare name).size : Int)) := by
  rw [Slots.offset?_declare h, Slots.size_declare h]
  rfl

theorem Disciplined.orderly {s : Stmt} {first inner : List Instruction}
    (h : Disciplined slots.size slots.size inner) (hstart : heightAfter 0 first = slots.size)
    (hfinish : heightAfter slots.size (inner ++ exit s) = slots'.size)
    (hdeclares : ∀ name, s.declared? = some name →
      ∃ value, inner = value ++ [.pushl accumulator] ∧ heightAfter slots.size value = slots.size ∧
        slots'.size = slots.size + 1 ∧ slots'.offset? name = some (-4 * (slots'.size : Int))) :
    Orderly first slots s inner slots' where
  start := hstart
  finish := by rw [heightAfter_append, hstart, hfinish]
  fits := by
    intro before i after hsplit
    rw [heightAfter_append, hstart]
    exact (h.split hsplit).1
  jumps := by
    intro before i after name hsplit hname
    obtain ⟨between, behind, hafter, hheight⟩ := (h.split hsplit).2 name hname
    refine ⟨between, behind, hafter, ?_⟩
    simp at hheight
    simp [hstart, hheight]
  declares := by
    intro name hname
    obtain ⟨value, hinner, hvalue, hslot⟩ := hdeclares name hname
    exact ⟨value, hinner, by rw [heightAfter_append, hstart, hvalue], hslot⟩

/-- A statement that declares nothing leaves the stack as it found it. -/
theorem Settled.orderly {s : Stmt} {first inner : List Instruction} (h : Settled slots.size inner)
    (hstart : heightAfter 0 first = slots.size) (hs : s.declared? = none) :
    Orderly first slots s inner slots := by
  have hexit : heightAfter slots.size (exit s) = slots.size := by cases s <;> rfl
  apply (h.disciplined _ (Nat.le_refl _)).orderly hstart
  · rw [heightAfter_append, h.height, hexit]
  · simp [hs]

/-- A statement other than a block keeps to the order of the stack, wherever it stands. -/
theorem orderly_stmt {s : Stmt} {first : List Instruction} (hs : s.isBlock = false)
    (hy : (stmt slots s).Yields l slots' code l') (hstart : heightAfter 0 first = slots.size) :
    slots'.names = slots.names ++ s.declared?.toList ∧
      ∃ inner, code = inner ++ exit s ∧ Orderly first slots s inner slots' := by
  cases s with
  | block body pos => cases hs
  | returns value pos =>
    obtain ⟨rfl, inner, hvalue, rfl⟩ := returns_yields hy
    exact ⟨by simp [Stmt.declared?], inner, rfl, (woven_expr hvalue).settled.orderly hstart rfl⟩
  | expr value pos =>
    obtain ⟨rfl, hvalue⟩ := exprStmt_yields hy
    exact ⟨by simp [Stmt.declared?], code, by simp [exit], (woven_expr hvalue).settled.orderly hstart rfl⟩
  | declare type name init pos =>
    obtain ⟨hnew, rfl, value, hvalue, rfl⟩ := declare_yields hy
    obtain ⟨_, hwoven⟩ := woven_initial hvalue
    have hsettled := hwoven.settled
    have hsize : (slots.declare name).size = slots.size + 1 := Slots.size_declare hnew
    have hpushed : Disciplined slots.size slots.size [.pushl accumulator] :=
      ⟨fits_push (Nat.le_refl _), nofun, trivial⟩
    refine ⟨Slots.names_declare hnew, value ++ [.pushl accumulator], by simp [exit], ?_⟩
    have hdisciplined : Disciplined slots.size slots.size (value ++ [.pushl accumulator]) := by
      apply (hsettled.disciplined _ (Nat.le_refl _)).append
      rwa [hsettled.height]
    refine hdisciplined.orderly hstart ?_ ?_
    · simp [exit, hsettled.height, Instruction.heightAfter, hsize]
    · rintro other ⟨⟩
      exact ⟨value, rfl, hsettled.height _, hsize, offset?_declare hnew⟩

/-- Between statements there is a word on the stack for each variable. -/
theorem stmts_height {body : List Stmt} {first : List Instruction} (hbody : ∀ s ∈ body, s.isBlock = false)
    (hy : (stmts slots body).Yields l slots' code l') (hstart : heightAfter 0 first = slots.size) :
    slots'.names = slots.names ++ body.filterMap Stmt.declared? ∧
      heightAfter 0 (first ++ code) = slots'.size := by
  induction body generalizing slots l code first with
  | nil =>
    obtain ⟨rfl, rfl, rfl⟩ := pure_yields.1 hy
    simpa using hstart
  | cons s more ih =>
    obtain ⟨hs, hmore⟩ := List.forall_mem_cons.1 hbody
    obtain ⟨middle, _, _, second, hown, hrest, rfl⟩ := bind_yields.1 hy
    obtain ⟨hnames, inner, rfl, horderly⟩ := orderly_stmt hs hown hstart
    obtain ⟨hnames', hheight⟩ := ih hmore hrest horderly.finish
    constructor
    · rw [hnames', hnames, List.append_assoc]
      cases hd : s.declared? <;> simp [hd]
    · rwa [List.append_assoc] at hheight

/-- Every statement of a body keeps to the order of the stack. -/
theorem orderly_body {body before after : List Stmt} {s : Stmt}
    (hy : (stmts {} body).Yields l slots' code l') (hsplit : Stmt.flatAll body = before ++ s :: after) :
    ∃ first inner last slots slots' l₁ l₂,
      code = first ++ ((inner ++ exit s) ++ last) ∧ (stmts {} before).Yields l slots first l₁ ∧
        (stmt slots s).Yields l₁ slots' (inner ++ exit s) l₂ ∧
        slots.names = before.filterMap Stmt.declared? ∧
        slots'.names = (before ++ [s]).filterMap Stmt.declared? ∧
        Orderly first slots s inner slots' := by
  have hsimple : ∀ t ∈ before ++ s :: after, t.isBlock = false := by
    rw [← hsplit]
    exact fun t ht => Stmt.isBlock_of_mem_flatAll ht
  have hflat := stmts_flat_yields hy
  rw [hsplit] at hflat
  obtain ⟨middle, first, l₁, _, hbefore, hrest, rfl⟩ := stmts_append_yields.1 hflat
  obtain ⟨next, _, l₂, last, hs, -, rfl⟩ := bind_yields.1 hrest
  have hempty : heightAfter 0 ([] : List Instruction) = ({} : Slots).size := rfl
  obtain ⟨hnames, hstart⟩ := stmts_height (fun t ht => hsimple t (by simp [ht])) hbefore hempty
  obtain ⟨hnames', inner, rfl, horderly⟩ := orderly_stmt (hsimple s (by simp)) hs hstart
  have hdeclared : middle.names = before.filterMap Stmt.declared? := by simpa using hnames
  refine ⟨first, inner, last, middle, next, l₁, l₂, rfl, hbefore, hs, hdeclared, ?_, horderly⟩
  rw [hnames', hdeclared, List.filterMap_append]
  cases hd : s.declared? <;> simp [hd]

/-- The code of a function without faults has the code of its statements between its entry and its end. -/
theorem function_code {f : Function} {l : Labels} (h : (function f l).faults = []) :
    ∃ (slots : Slots) (code : List Instruction) (l' : Labels), (stmts {} f.body.body).Yields l slots code l' ∧
      (function f l).code =
        entry f ++ (code ++ ((if endsWithReturn f.body.body then [] else leave) ++ [.blank])) := by
  have hy : (function f).Yields l () (function f l).code (function f l).labels := by
    unfold Yields
    rw [← function_ok f l, ← h]
  obtain ⟨_, _, _, _, hentry, hbody, hcode⟩ := bind_yields.1 (function_yields.1 hy)
  obtain ⟨rfl, rfl⟩ := emit_yields.1 hentry
  obtain ⟨slots, code, _, _, hstmts, hend, rfl⟩ := bind_yields.1 hbody
  obtain ⟨_, _, _, _, hleave, hblank, rfl⟩ := bind_yields.1 hend
  obtain ⟨rfl, rfl⟩ := emit_yields.1 hleave
  obtain ⟨rfl, -⟩ := emit_yields.1 hblank
  exact ⟨slots, code, _, hstmts, hcode⟩

/-- A function without faults is its entry, the code of its statements one after the other, and its end. Every
statement keeps to the order of the stack, whatever blocks it stands in. -/
theorem stack_discipline {f : Function} {l : Labels} (h : (function f l).faults = []) :
    ∃ code,
      (function f l).code =
        entry f ++ (code ++ ((if endsWithReturn f.body.body then [] else leave) ++ [.blank])) ∧
      (labels code).Nodup ∧
      ∀ before s after, Stmt.flatAll f.body.body = before ++ s :: after →
        ∃ first inner last slots slots' l₁ l₂,
          code = first ++ ((inner ++ exit s) ++ last) ∧ (stmts {} before).Yields l slots first l₁ ∧
            (stmt slots s).Yields l₁ slots' (inner ++ exit s) l₂ ∧
            slots.names = before.filterMap Stmt.declared? ∧
            slots'.names = (before ++ [s]).filterMap Stmt.declared? ∧
            Orderly first slots s inner slots' := by
  obtain ⟨_, code, _, hstmts, hcode⟩ := function_code h
  obtain ⟨-, -, hwoven⟩ := (account_stmts (W := fun _ => True) f.body.body tracks_empty
    fun _ _ => trivial).of_yields hstmts
  have hperm := hwoven.perm_labels fun i hi => hi.label?_eq_none
  refine ⟨code, hcode, ?_, fun before s after hsplit => orderly_body hstmts hsplit⟩
  exact hperm.nodup_iff.2 (Labels.nodup_names _ _)

/-- The function `int f() { int a = 1; { int b; b = a && 2; } return a + b; }`. -/
def nestedDeclaration : Function :=
  let here : Position := ⟨0, 0, ⟨0, 0⟩⟩
  let int : TypeName := ⟨"int", here⟩
  let value : Expr := .binary .logAnd (.var "a" here) (.number "2" here) here
  let sum : Expr := .binary (.arith .add) (.var "a" here) (.var "b" here) here
  ⟨int, "f", [], ⟨[.declare int "a" (some (.number "1" here)) here,
    .block [.declare int "b" none here, .expr (.assign .plain (.var "b" here) value here) here] here,
    .returns sum here], here⟩, here⟩

theorem nestedDeclaration_orderly :
    (function nestedDeclaration {}).faults = [] ∧
      ∃ before s first inner slots slots', Stmt.flatAll nestedDeclaration.body.body = before ++ [s] ∧
        before.length = 3 ∧ slots.names = ["a", "b"] ∧ Orderly first slots s inner slots' := by
  have hfaults : (function nestedDeclaration {}).faults = [] := rfl
  obtain ⟨code, hcode, -, hall⟩ := stack_discipline hfaults
  obtain ⟨first, inner, last, slots, slots', l₁, l₂, -, -, -, hnames, -, horderly⟩ := hall [_, _, _] _ [] rfl
  exact ⟨hfaults, [_, _, _], _, first, inner, slots, slots', rfl, rfl, hnames, horderly⟩

end Lowering

end SmallC
