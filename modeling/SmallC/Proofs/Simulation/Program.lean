import SmallC.Proofs.Simulation.Expression

/-!
# Functions return what they evaluate to

The statements of a function run one after the other from its entry, and every way out of it goes
through `leave`. What carries the induction over the statements is that the word at the frame pointer
is still the caller's frame pointer and that nothing from the return address on has changed.
-/
namespace SmallC

mutual

/-- Words of stack that the statement takes at most, below the variables declared before it. -/
def Stmt.words : Stmt → Nat
  | .block body _ => Stmt.wordsAll body
  | .returns value _ | .expr value _ => value.temporaries
  | .declare _ _ init _ => max (init.elim 0 Expr.temporaries) 1

def Stmt.wordsAll : List Stmt → Nat
  | [] => 0
  | s :: more => max s.words (s.declared + Stmt.wordsAll more)

end

/-- Words of stack that a call of the function takes at most, below its return address. -/
def Function.stackWords (f : Function) : Nat :=
  1 + Stmt.wordsAll f.body.body

namespace Simulation

open Assembly Machine Lowering

variable {p : Image} {slots slots' : Slots} {base : Nat} {env : Env} {caller s t : State}

/-- A function that was entered in the state `caller` is running. -/
structure Called (caller : State) (base : Nat) (s : State) : Prop where
  frame : s.ebp.toNat = base
  entry : base + 4 = caller.esp.toNat
  above : caller.esp.toNat + 4 ≤ 2 ^ 32
  saved : s.memory.load s.ebp = caller.ebp
  kept : ∀ a : Word, caller.esp.toNat ≤ a.toNat → s.memory a = caller.memory a

/-- A call is over and has the result `v`. -/
structure Returned (caller : State) (v : Word) (t : State) : Prop where
  pc : t.pc = (caller.memory.load caller.esp).toNat
  esp : t.esp = caller.esp + 4#32
  ebp : t.ebp = caller.ebp
  eax : t.eax = v
  kept : ∀ a : Word, caller.esp.toNat ≤ a.toNat → t.memory a = caller.memory a

theorem Called.of_keeps {depth : Nat} (h : Called caller base s) (hframe : t.ebp.toNat = base)
    (hk : Keeps slots base depth s t) : Called caller base t := by
  have hentry := h.entry
  have habove := h.above
  have hf := h.frame
  have hebp : t.ebp = s.ebp := BitVec.eq_of_toNat_eq (hframe.trans hf.symm)
  refine ⟨hframe, h.entry, h.above, ?_, ?_⟩
  · rw [hebp, hk.load_eq (by omega) (by omega) (by omega), h.saved]
  · intro a ha
    rw [hk a (by omega) (by omega), h.kept a ha]

/-- Leaving a function gets back to its caller. -/
theorem Called.leave (h : Called caller base s) (hp : Placed p.code s.pc leave) :
    p.Reaches s (Returned caller s.eax) := by
  have hentry := h.entry
  have habove := h.above
  have hf := h.frame
  have hesp : s.ebp + 4#32 = caller.esp := BitVec.eq_of_toNat_eq (by bv_omega)
  have hreturn : s.memory.load caller.esp = caller.memory.load caller.esp :=
    Memory.load_congr habove fun b hb _ => h.kept b hb
  refine (Image.reaches_step hp rfl).trans ?_
  rintro t rfl
  refine (Image.reaches_step hp.tail rfl).trans ?_
  rintro t rfl
  refine (Image.reaches_step hp.tail.tail rfl).mono ?_
  rintro t rfl
  refine ⟨?_, ?_, h.saved, rfl, h.kept⟩
  · change (s.memory.load (s.ebp + 4#32)).toNat = _
    rw [hesp, hreturn]
  · change s.ebp + 4#32 + 4#32 = _
    rw [hesp]

/-- The state in which a statement is left. -/
def Left (caller : State) (slots : Slots) (base place : Nat) : Flow → State → Prop
  | .onward env, t => Represents slots base slots.size env t ∧ Called caller base t ∧ t.pc = place
  | .returned v, t => Returned caller v t

/-- What is shown of every piece of code that lowers statements. -/
def Runs (p : Image) (slots : Slots) (x : Emit Slots) (words : Nat) (r : Env → Except Stop Flow) :
    Prop :=
  ∀ {l l' : Labels} {slots' : Slots} {code : List Instruction} {env : Env} {caller s : State}
    {base : Nat},
    x.Yields l slots' code l' → Placed p.code s.pc code →
    Represents slots base slots.size env s → Called caller base s →
    4 * (slots.size + words) ≤ base →
    Follows p s (r env) (Left caller slots' base (s.pc + code.length))

theorem runs_returns (hl : (labels p.code).Nodup) (value : Expr) (pos : Position) :
    Runs p slots (Lowering.stmt slots (.returns value pos)) value.temporaries
      (Stmt.exec p.literal (.returns value pos)) := by
  intro l l' slots' code env caller s base hy hp hr hc hroom
  obtain ⟨rfl, first, hx, rfl⟩ := returns_yields hy
  rw [Stmt.exec]
  refine (simulates hl value hx hp.left hr hroom).bind ?_
  intro env' t ht
  rw [← ht.represents.accumulator]
  exact (hc.of_keeps ht.represents.frame ht.keeps).leave (ht.placed hp)

theorem runs_expr (hl : (labels p.code).Nodup) (value : Expr) (pos : Position) :
    Runs p slots (Lowering.stmt slots (.expr value pos)) value.temporaries
      (Stmt.exec p.literal (.expr value pos)) := by
  intro l l' slots' code env caller s base hy hp hr hc hroom
  obtain ⟨rfl, hx⟩ := exprStmt_yields hy
  rw [Stmt.exec]
  refine (simulates hl value hx hp hr hroom).bind ?_
  intro env' t ht
  exact Image.reaches_here ⟨ht.represents, hc.of_keeps ht.represents.frame ht.keeps, ht.pc⟩

/-- The word that a declaration starts with is worked out as its initial value, or it is what the
accumulator holds anyway. -/
theorem follows_initial (hl : (labels p.code).Nodup) {init : Option Expr} {l l' : Labels}
    {code : List Instruction} (hy : (initial slots init).Yields l () code l')
    (hp : Placed p.code s.pc code) {depth : Nat} (hr : Represents slots base depth env s)
    (hroom : 4 * (depth + init.elim 0 Expr.temporaries) ≤ base) :
    Follows p s (initialValue p.literal init env) (Evaluated slots base depth s code) := by
  cases init with
  | some value => exact simulates hl value hy hp hr hroom
  | none =>
    obtain ⟨-, rfl, -⟩ := Emit.pure_yields.1 hy
    exact Image.reaches_here ⟨hr, .of_memory_eq rfl, rfl⟩

theorem runs_declare (hl : (labels p.code).Nodup) (type : TypeName) (name : String)
    (init : Option Expr) (pos : Position) :
    Runs p slots (Lowering.stmt slots (.declare type name init pos))
      (Stmt.declare type name init pos).words
      (Stmt.exec p.literal (.declare type name init pos)) := by
  intro l l' slots' code env caller s base hy hp hr hc hroom
  obtain ⟨hn, rfl, first, hx, rfl⟩ := declare_yields hy
  have hnew : (env.values name).isSome = false := by
    rw [hr.values name, List.idxOf?_eq_none_iff.2 hn]
    rfl
  rw [Stmt.words] at hroom
  rw [Stmt.exec, hnew]
  refine (follows_initial hl hx hp.left hr (by omega)).bind ?_
  intro env' t ht
  obtain ⟨u, hpush, hu, hk, htop, hpc⟩ := exec_pushl (p := p) ht.represents (by omega)
  refine (Image.reaches_step (ht.placed hp) hpush).mono ?_
  rintro u rfl
  have hd := hu.declare hn
  rw [htop] at hd
  refine ⟨hd, hc.of_keeps hu.frame (ht.keeps.trans hk), ?_⟩
  rw [hpc, ht.pc, List.length_append, Nat.add_assoc]
  rfl

theorem runs_nil : Runs p slots (Lowering.stmts slots []) 0 (Stmt.execAll p.literal []) := by
  intro l l' slots' code env caller s base hy hp hr hc _
  obtain ⟨rfl, rfl, -⟩ := Emit.pure_yields.1 hy
  exact Image.reaches_here ⟨hr, hc, rfl⟩

theorem runs_cons {st : Stmt} {more : List Stmt}
    (hst : Runs p slots (Lowering.stmt slots st) st.words (Stmt.exec p.literal st))
    (hmore : ∀ slots, Runs p slots (Lowering.stmts slots more) (Stmt.wordsAll more)
      (Stmt.execAll p.literal more)) :
    Runs p slots (Lowering.stmts slots (st :: more)) (Stmt.wordsAll (st :: more))
      (Stmt.execAll p.literal (st :: more)) := by
  intro l l' slots' code env caller s base hy hp hr hc hroom
  obtain ⟨middle, first, _, second, hx, hx', rfl⟩ := Emit.bind_yields.1 hy
  have hsize := size_stmt hx
  rw [Stmt.wordsAll] at hroom
  rw [Stmt.execAll]
  refine (hst hx hp.left hr hc (by omega)).bind ?_
  intro flow t ht
  cases flow with
  | onward env' =>
    obtain ⟨hr', hc', hpc⟩ := ht
    have hrest := hmore middle hx' (hpc ▸ hp.right) hr' hc' (by omega)
    rw [hpc, Nat.add_assoc, ← List.length_append] at hrest
    exact hrest
  | returned v => exact Image.reaches_here ht

mutual

theorem runs_stmt (hl : (labels p.code).Nodup) (slots : Slots) :
    ∀ st : Stmt, Runs p slots (Lowering.stmt slots st) st.words (Stmt.exec p.literal st)
  | .block body _ => runs_stmts hl slots body
  | .returns value pos => runs_returns hl value pos
  | .expr value pos => runs_expr hl value pos
  | .declare type name init pos => runs_declare hl type name init pos

theorem runs_stmts (hl : (labels p.code).Nodup) (slots : Slots) :
    ∀ body : List Stmt,
      Runs p slots (Lowering.stmts slots body) (Stmt.wordsAll body) (Stmt.execAll p.literal body)
  | [] => runs_nil
  | st :: more => runs_cons (runs_stmt hl slots st) fun slots => runs_stmts hl slots more

end

/-- Entering a function makes its frame. -/
theorem reaches_enter {name : String} {block : List Instruction}
    (hp : Placed p.code s.pc ((.label name :: enter) ++ block)) (hroom : 4 ≤ s.esp.toNat)
    (habove : s.esp.toNat + 4 ≤ 2 ^ 32) :
    p.Reaches s (fun t => Represents {} (s.esp.toNat - 4) 0 ⟨s.eax, fun _ => none⟩ t ∧
      Called s (s.esp.toNat - 4) t ∧ Placed p.code t.pc block) := by
  have hebp : (s.esp - 4#32).toNat = s.esp.toNat - 4 := by bv_omega
  refine (Image.reaches_block hp.left (by simp [enter, isLinear]) rfl).mono ?_
  rintro t ⟨rfl, hpc⟩
  refine ⟨⟨hebp, hebp, by omega, Nat.le_refl 0, rfl, fun _ => rfl⟩, ⟨hebp, by omega, habove, ?_, ?_⟩,
    hp.right⟩
  · exact Memory.load_store_same _ _ _
  · intro a ha
    have hout : (s.esp - 4#32).toNat + 4 ≤ a.toNat := by omega
    exact s.memory.store_outside s.ebp (a := s.esp - 4#32) (by omega) (.inr hout)

/-- A body that ends in a return does not run to its end. -/
theorem not_onward {literal : String → Word} {body : List Stmt} (h : endsWithReturn body = true)
    (env env' : Env) : Stmt.execAll literal body env ≠ .ok (.onward env') := by
  induction body generalizing env with
  | nil => cases h
  | cons st more ih =>
    rw [Stmt.execAll]
    cases hst : st.exec literal env with
    | error e => simp [Bind.bind, Except.bind]
    | ok flow =>
      cases flow with
      | returned v => simp [Bind.bind, Except.bind]
      | onward env'' =>
        cases more with
        | nil =>
          obtain ⟨value, pos, rfl⟩ : ∃ value pos, st = .returns value pos := by
            cases st with
            | returns value pos => exact ⟨value, pos, rfl⟩
            | block | expr | declare => cases h
          rw [Stmt.exec] at hst
          cases hv : value.eval literal env <;> simp [hv, Bind.bind, Except.bind] at hst
        | cons next more => exact ih (by simpa [endsWithReturn] using h) env''

/-- A function that was lowered without a fault returns its result from wherever its code stands. -/
theorem follows_function (hl : (labels p.code).Nodup) {f : Function} {l l' : Labels}
    {code : List Instruction} (hy : (functionBody ({} : Slots) f).Yields l () code l')
    {place : Nat}
    (hp : Placed p.code place code) (hentry : p.code[s.pc]? = some (.label f.name))
    (hroom : 4 * f.stackWords ≤ s.esp.toNat) (habove : s.esp.toNat + 4 ≤ 2 ^ 32) :
    Follows p s (f.result p.literal s.eax) (Returned s) := by
  obtain ⟨_, _, _, _, he, hrest, rfl⟩ := Emit.bind_yields.1 hy
  obtain ⟨slots, body, _, _, hx, hrest', rfl⟩ := Emit.bind_yields.1 hrest
  obtain ⟨_, _, _, _, he', he'', rfl⟩ := Emit.bind_yields.1 hrest'
  obtain ⟨rfl, -⟩ := Emit.emit_yields.1 he
  obtain ⟨rfl, -⟩ := Emit.emit_yields.1 he'
  obtain ⟨rfl, -⟩ := Emit.emit_yields.1 he''
  have hpc : place + 1 = s.pc := by
    have hplace := idxOf?_label hl hp.tail.fetch
    rwa [idxOf?_label hl hentry, Option.some.injEq, eq_comm] at hplace
  have hpl : Placed p.code s.pc ((.label f.name :: enter) ++ _) := hpc ▸ hp.tail
  rw [Function.stackWords] at hroom
  refine .after (reaches_enter hpl (by omega) habove) ?_
  rintro t ⟨hr, hc, hpt⟩
  have hsize : (({} : Slots)).size = 0 := rfl
  have hbody := runs_stmts hl {} f.body.body hx hpt.left hr hc (by omega)
  refine Follows.bind hbody.with_result ?_
  rintro flow u ⟨hflow, hu⟩
  cases flow with
  | returned v => exact Image.reaches_here hu
  | onward env =>
    have hend : endsWithReturn f.body.body = false :=
      Bool.eq_false_iff.2 fun h => not_onward h _ _ hflow
    obtain ⟨hr', hc', hpc'⟩ := hu
    have hpu := hpt.right.left
    rw [hend, ← hpc'] at hpu
    have hreturn := hc'.leave hpu
    rw [hr'.accumulator] at hreturn
    exact hreturn

/-- Where the code of one of the functions stands. -/
theorem placed_function {fs : List Function} {l l' : Labels} {code whole : List Instruction}
    (hy : (functions fs).Yields l () code l') {place : Nat} (hp : Placed whole place code)
    {f : Function} (hf : f ∈ fs) :
    ∃ l₁ block l₂ place', (functionBody ({} : Slots) f).Yields l₁ () block l₂ ∧
      Placed whole place' block := by
  induction fs generalizing l code place with
  | nil => cases hf
  | cons g fs ih =>
    obtain ⟨_, first, _, _, hx, hrest, rfl⟩ := Emit.bind_yields.1 hy
    rcases List.mem_cons.1 hf with rfl | hf
    · exact ⟨_, _, _, _, function_yields.1 hx, hp.left⟩
    · exact ih hrest hp.right hf

/-- Code of a unit that was lowered without a fault, called at the label of one of its functions,
returns what the function evaluates to, or traps at a division that has no result. -/
theorem call_returns_result {l : Labels} {unit : TranslationUnit} {m : Image}
    (hcode : m.code = (program l unit).code) (hfaults : (program l unit).faults = [])
    (hlabels : (labels m.code).Nodup) {f : Function} (hf : f ∈ unit.functions) {s : State}
    (hentry : m.code[s.pc]? = some (.label f.name)) (hstack : 4 * f.stackWords ≤ s.esp.toNat)
    (habove : s.esp.toNat + 4 ≤ 2 ^ 32) :
    (∃ v, f.result m.literal s.eax = .ok v ∧ m.Reaches s (Returned s v)) ∨
      (f.result m.literal s.eax = .error .division ∧ m.Traps s) := by
  have hy : (functions unit.functions).Yields l () (functions unit.functions l).code
      (functions unit.functions l).labels := by
    have hok := functions_ok unit.functions l
    have hnone : (functions unit.functions l).faults = [] := hfaults
    cases hx : functions unit.functions l
    simp_all [Emit.Yields]
  have hp : Placed m.code header.length (functions unit.functions l).code :=
    ⟨header, footer, hcode, rfl⟩
  obtain ⟨l₁, block, l₂, place, hb, hpb⟩ := placed_function hy hp hf
  have hrun := follows_function hlabels hb hpb hentry hstack habove
  cases hr : f.result m.literal s.eax with
  | ok v =>
    rw [hr] at hrun
    exact .inl ⟨v, rfl, hrun⟩
  | error e =>
    rw [hr] at hrun
    cases e with
    | division => exact .inr ⟨rfl, hrun⟩
    | meaningless => exact hrun.elim

/-- `int main() { int a = 7; int b; return (a && (b = a / 2)) + (b -= 4) % a; }` -/
def remainders : Function :=
  let pos : Position := ⟨0, 0, ⟨0, 0⟩⟩
  let int : TypeName := ⟨"int", pos⟩
  let a : Expr := .var "a" pos
  let b : Expr := .var "b" pos
  let half : Expr := .assign .plain b (.binary (.arith .div) a (.number "2" pos) pos) pos
  let rest : Expr := .assign (.compound .sub) b (.number "4" pos) pos
  let sum : Expr := .binary (.arith .add) (.binary .logAnd a half pos)
    (.binary (.arith .mod) rest a pos) pos
  ⟨int, "main", [], ⟨[.declare int "a" (some (.number "7" pos)) pos, .declare int "b" none pos,
    .returns sum pos], pos⟩, pos⟩

/-- The right operand of the sum comes first and finds in `b` the 7 that the accumulator held where it
was declared. -/
theorem remainders_return_four :
    let m : Image := ⟨(program {} ⟨[remainders]⟩).code,
      fun digits => if digits = "7" then 7#32 else if digits = "4" then 4#32 else 2#32,
      fun _ s => s.flags⟩
    let s : State :=
      ⟨9#32, 0#32, 0#32, 0#32, 0x100#32, 0x200#32, ⟨false, false, false⟩, fun _ => 0xff#8, 10⟩
    m.Reaches s (Returned s 4#32) := by
  intro m s
  have hresult : remainders.result m.literal s.eax = .ok 4#32 := by cbv
  have hcall := call_returns_result (m := m) (s := s) rfl (by decide) (by decide)
    (List.mem_singleton_self remainders) (by decide) (by decide) (by decide)
  rw [hresult] at hcall
  rcases hcall with ⟨v, hv, hr⟩ | ⟨hv, -⟩
  · obtain rfl := Except.ok.inj hv
    exact hr
  · cases hv

end Simulation

end SmallC
