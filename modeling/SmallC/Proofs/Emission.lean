import SmallC.Lowering.Program

/-!
# Lowerings that run through

`x.Yields l a code l'` says that a lowering that starts with the labels `l` comes to the value `a`
without a fault, having emitted `code`, and leaves the labels `l'`. A sequence of lowerings runs through
if and only if its parts do, one after the other.
-/
namespace SmallC

mutual

/-- Variables that the statement declares. -/
def Stmt.declared : Stmt → Nat
  | .block body _ => Stmt.declaredAll body
  | .declare _ _ _ _ => 1
  | .returns _ _ | .expr _ _ => 0

def Stmt.declaredAll : List Stmt → Nat
  | [] => 0
  | s :: more => s.declared + Stmt.declaredAll more

end

namespace Assembly.Labels

/-- The labels after `n` more were handed out. -/
def skip (l : Labels) (n : Nat) : Labels :=
  { l with count := l.count + n }

theorem skip_skip (l : Labels) (n m : Nat) : (l.skip n).skip m = l.skip (n + m) := by
  unfold skip
  rw [Nat.add_assoc]

end Assembly.Labels

namespace Lowering.Emit

open Assembly

variable {α β : Type} {x : Emit α} {f : α → Emit β} {a : α} {b : β}
  {code block : List Instruction} {faults : List Fault} {l l' : Labels}

theorem bind_of_ok (h : x l = ⟨.ok a, code, faults, l'⟩) :
    (x >>= f) l = ⟨(f a l').result, code ++ (f a l').code, faults ++ (f a l').faults, (f a l').labels⟩ := by
  show Emit.bind x f l = _
  rw [Emit.bind, h]

theorem bind_of_error {fault : Fault} (h : x l = ⟨.error fault, code, faults, l'⟩) :
    (x >>= f) l = ⟨.error fault, code, faults, l'⟩ := by
  show Emit.bind x f l = _
  rw [Emit.bind, h]

theorem freshLabel_eq (h : l.count < l.limit) :
    freshLabel l = ⟨.ok (Labels.name l.count), [], [], l.skip 1⟩ := by
  rw [freshLabel, Labels.fresh?, if_pos h]
  rfl

theorem freshLabel_eq_error (h : ¬ l.count < l.limit) : freshLabel l = ⟨.error .noLabel, [], [], l⟩ := by
  rw [freshLabel, Labels.fresh?, if_neg h]

def Yields (x : Emit α) (l : Labels) (a : α) (code : List Instruction) (l' : Labels) : Prop :=
  x l = ⟨.ok a, code, [], l'⟩

theorem bind_yields :
    (x >>= f).Yields l b code l' ↔
      ∃ a first middle second, x.Yields l a first middle ∧ (f a).Yields middle b second l' ∧
        code = first ++ second := by
  change Emit.bind x f l = _ ↔ _
  unfold Emit.bind Yields
  constructor
  · intro h
    split at h
    · next a first faults middle hx =>
      simp only [Emission.mk.injEq, List.append_eq_nil_iff] at h
      obtain ⟨hr, rfl, ⟨rfl, hf⟩, hl⟩ := h
      refine ⟨a, first, middle, _, hx, ?_, rfl⟩
      cases hn : f a middle
      simp_all
    · simp at h
  · rintro ⟨a, first, middle, second, hx, hf, rfl⟩
    rw [hx]
    simp [hf]

theorem pure_yields {c : α} : (pure c : Emit α).Yields l a code l' ↔ a = c ∧ code = [] ∧ l' = l := by
  change Emit.pure c l = _ ↔ _
  unfold Emit.pure
  constructor
  · intro h
    cases h
    exact ⟨rfl, rfl, rfl⟩
  · rintro ⟨rfl, rfl, rfl⟩
    rfl

theorem emit_yields {u : Unit} : (emit block).Yields l u code l' ↔ code = block ∧ l' = l := by
  unfold Yields emit
  constructor
  · intro h
    cases h
    exact ⟨rfl, rfl⟩
  · rintro ⟨rfl, rfl⟩
    rfl

/-- Two lowerings, each with instructions after it. -/
theorem alternate_yields {x y : Emit Unit} {before after : List Instruction}
    (h : (do x; emit before; y; emit after : Emit Unit).Yields l () code l') :
    ∃ first second middle, x.Yields l () first middle ∧ y.Yields middle () second l' ∧
      code = first ++ (before ++ (second ++ after)) := by
  obtain ⟨_, first, middle, _, hx, hrest, rfl⟩ := bind_yields.1 h
  obtain ⟨_, _, _, _, hbefore, hrest', rfl⟩ := bind_yields.1 hrest
  obtain ⟨_, second, _, _, hy, hafter, rfl⟩ := bind_yields.1 hrest'
  obtain ⟨rfl, rfl⟩ := emit_yields.1 hbefore
  obtain ⟨rfl, rfl⟩ := emit_yields.1 hafter
  exact ⟨first, second, _, hx, hy, rfl⟩

theorem not_report_yields {fault : Fault} {u : Unit} : ¬ (report fault).Yields l u code l' := by
  simp [Yields, report]

theorem not_stop_yields {fault : Fault} : ¬ (stop fault : Emit α).Yields l a code l' := by
  simp [Yields, stop]

theorem freshLabel_yields {name : String} :
    freshLabel.Yields l name code l' ↔
      l.count < l.limit ∧ name = Labels.name l.count ∧ code = [] ∧
        l' = { l with count := l.count + 1 } := by
  unfold Yields freshLabel Labels.fresh?
  by_cases h : l.count < l.limit
  · rw [if_pos h]
    constructor
    · intro hy
      cases hy
      exact ⟨h, rfl, rfl, rfl⟩
    · rintro ⟨-, rfl, rfl, rfl⟩
      rfl
  · rw [if_neg h]
    exact ⟨(nomatch ·), fun hy => absurd hy.1 h⟩

end Lowering.Emit

namespace Lowering

open Assembly Emit

variable {slots slots' : Slots} {code : List Instruction} {l l' : Labels}

theorem variableSlot_yields {name : String} {pos : Position} {op : Operand}
    (h : (variableSlot slots name pos).Yields l op code l') :
    ∃ offset, slots.offset? name = some offset ∧ op = .frame offset ∧ code = [] ∧ l' = l := by
  unfold variableSlot at h
  split at h
  · next offset ho =>
    obtain ⟨rfl, rfl, rfl⟩ := pure_yields.1 h
    exact ⟨offset, ho, rfl, rfl, rfl⟩
  · exact absurd h not_stop_yields

theorem targetSlot_yields {target : Expr} {op : Operand}
    (h : (targetSlot slots target).Yields l op code l') :
    ∃ name offset, target.var? = some name ∧ slots.offset? name = some offset ∧
      op = .frame offset ∧ code = [] ∧ l' = l := by
  unfold targetSlot at h
  split at h
  · next name hv =>
    obtain ⟨offset, ho, hop, hc, hl⟩ := variableSlot_yields h
    exact ⟨name, offset, hv, ho, hop, hc, hl⟩
  · obtain ⟨_, _, _, _, hr, -⟩ := bind_yields.1 h
    exact absurd hr not_report_yields

theorem returns_yields {value : Expr} {pos : Position}
    (h : (stmt slots (.returns value pos)).Yields l slots' code l') :
    slots' = slots ∧ ∃ first, (expr slots value).Yields l () first l' ∧ code = first ++ leave := by
  obtain ⟨_, first, _, _, hvalue, hrest, rfl⟩ := bind_yields.1 h
  obtain ⟨_, _, _, _, hleave, hslots, rfl⟩ := bind_yields.1 hrest
  obtain ⟨rfl, rfl⟩ := emit_yields.1 hleave
  obtain ⟨rfl, rfl, rfl⟩ := pure_yields.1 hslots
  exact ⟨rfl, first, hvalue, by rw [List.append_nil]⟩

theorem exprStmt_yields {value : Expr} {pos : Position}
    (h : (stmt slots (.expr value pos)).Yields l slots' code l') :
    slots' = slots ∧ (expr slots value).Yields l () code l' := by
  obtain ⟨_, first, _, _, hvalue, hslots, rfl⟩ := bind_yields.1 h
  obtain ⟨rfl, rfl, rfl⟩ := pure_yields.1 hslots
  rw [List.append_nil]
  exact ⟨rfl, hvalue⟩

theorem declare_yields {type : TypeName} {name : String} {init : Option Expr} {pos : Position}
    (h : (stmt slots (.declare type name init pos)).Yields l slots' code l') :
    name ∉ slots.names ∧ slots' = slots.declare name ∧
      ∃ value, (initial slots init).Yields l () value l' ∧ code = value ++ [.pushl accumulator] := by
  rw [stmt] at h
  split at h
  · obtain ⟨_, _, _, _, hreport, -⟩ := bind_yields.1 h
    exact absurd hreport not_report_yields
  · next hnone =>
    obtain ⟨_, value, _, _, hvalue, hrest, rfl⟩ := bind_yields.1 h
    obtain ⟨_, _, _, _, hpush, hslots, rfl⟩ := bind_yields.1 hrest
    obtain ⟨rfl, rfl⟩ := emit_yields.1 hpush
    obtain ⟨rfl, rfl, rfl⟩ := pure_yields.1 hslots
    exact ⟨fun hmem => hnone (Slots.isSome_offset?_iff.2 hmem), rfl, value, hvalue, by rw [List.append_nil]⟩

mutual

/-- A statement adds a slot for each variable it declares. -/
theorem size_stmt {slots slots' : Slots} {l l' : Labels} {code : List Instruction} :
    ∀ {st : Stmt}, (stmt slots st).Yields l slots' code l' →
      slots'.size = slots.size + st.declared
  | .block body pos, hy => size_stmts hy
  | .returns value pos, hy => by
    rw [(returns_yields hy).1]
    rfl
  | .expr value pos, hy => by
    rw [(exprStmt_yields hy).1]
    rfl
  | .declare type name init pos, hy => by
    obtain ⟨hn, rfl, -⟩ := declare_yields hy
    exact Slots.size_declare hn

theorem size_stmts {slots slots' : Slots} {l l' : Labels} {code : List Instruction} :
    ∀ {body : List Stmt}, (stmts slots body).Yields l slots' code l' →
      slots'.size = slots.size + Stmt.declaredAll body
  | [], hy => by
    obtain ⟨rfl, -⟩ := pure_yields.1 hy
    rfl
  | st :: more, hy => by
    obtain ⟨middle, _, _, _, hx, hmore, -⟩ := bind_yields.1 hy
    rw [size_stmts hmore, size_stmt hx, Stmt.declaredAll, Nat.add_assoc]

end

theorem function_yields {f : Function} {u : Unit} :
    (function f).Yields l u code l' ↔ (functionBody ({} : Slots) f).Yields l u code l' := by
  unfold Emit.Yields function functionOver
  cases hb : functionBody ({} : Slots) f l with
  | mk result first faults labels =>
    cases result with
    | ok v => rfl
    | error fault => simp

section

variable {f : Function} {faults : List Fault}

theorem function_of_ok (h : functionBody ({} : Slots) f l = ⟨.ok (), code, faults, l'⟩) :
    function f l = ⟨.ok (), code, faults, l'⟩ := by
  rw [function, functionOver, h]

theorem function_of_error {fault : Fault}
    (h : functionBody ({} : Slots) f l = ⟨.error fault, code, faults, l'⟩) :
    function f l = ⟨.ok (), [.comment (f.name ++ " aborted: " ++ fault.message), .blank],
      faults ++ [fault], l'⟩ := by
  rw [function, functionOver, h]

end

theorem function_ok (f : Function) (l : Labels) : (function f l).result = .ok () := by
  unfold function functionOver
  split <;> rfl

theorem functions_cons (f : Function) (fs : List Function) (l : Labels) :
    functions (f :: fs) l =
      ⟨(functions fs (function f l).labels).result,
        (function f l).code ++ (functions fs (function f l).labels).code,
        (function f l).faults ++ (functions fs (function f l).labels).faults,
        (functions fs (function f l).labels).labels⟩ := by
  have hf : function f l = ⟨.ok (), (function f l).code, (function f l).faults, (function f l).labels⟩ := by
    rw [← function_ok f l]
  rw [functions, bind_of_ok hf]

/-- Lowering functions goes through, with faults or without. -/
theorem functions_ok (fs : List Function) (l : Labels) : (functions fs l).result = .ok () := by
  induction fs generalizing l with
  | nil => rfl
  | cons f fs ih => rw [functions_cons, ih]

end Lowering

end SmallC
