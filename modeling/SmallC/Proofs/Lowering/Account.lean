import SmallC.Proofs.Emission
import SmallC.Proofs.Lowering.Scope
import SmallC.Proofs.Machine.Reach

/-!
# What a lowering comes to

`x.Account W P ok n post` is the full account of a lowering. It comes to a value with `post` and to woven code, put
together from blocks of `P`s in the three ways that lowerings know, or it stops at a fault about a word in `W`. It is
without a fault exactly if `ok` holds and `n` labels are left, and then it takes these. For an expression `ok` comes
out as its scope rules and `n` as two labels for each logical operator. What else is to be known of code is read off
from how it is woven.
-/
namespace SmallC

namespace Assembly

/-- The names of the next `n` labels. -/
def Labels.names (l : Labels) (n : Nat) : List String :=
  (List.range' l.count n).map name

theorem Labels.names_add (l : Labels) (n m : Nat) : l.names (n + m) = l.names n ++ (l.skip n).names m := by
  unfold names
  rw [← List.map_append, skip, List.range'_append_1]

namespace Instruction

def operands : Instruction → List Operand
  | .movl src dst | .addl src dst | .subl src dst | .andl src dst | .orl src dst | .xorl src dst
  | .cmpl src dst => [src, dst]
  | .pushl op | .idivl op | .negl op | .incl op | .decl op | .notl op => [op]
  | .imull src _ => [src]
  | .sall _ dst | .sarl _ dst => [dst]
  | _ => []

/-- The instruction works on its operands, and does nothing to the stack or to the order of execution. -/
def isWork : Instruction → Bool
  | .pushl _ | .popl _ | .jmp _ | .jcc _ _ | .call _ | .ret | .int _ => false
  | .label _ | .comment _ | .directive _ | .blank => false
  | .movl _ _ | .addl _ _ | .subl _ _ | .andl _ _ | .orl _ _ | .xorl _ _ | .cmpl _ _ => true
  | .imull _ _ | .cdq | .idivl _ | .negl _ | .incl _ | .decl _ | .notl _ => true
  | .sall _ _ | .sarl _ _ | .set _ _ => true

end Instruction

/-- The number is spelled by a word in `W`, and the word in memory is in the frame at a displacement in `D`. -/
def Operand.Known (W : String → Prop) (D : Int → Prop) : Operand → Prop
  | .literal digits => W digits
  | .mem displacement base => base = .ebp ∧ D displacement
  | .reg _ | .imm _ => True

namespace Operand

variable {W : String → Prop} {D : Int → Prop}

@[simp] theorem known_reg (r : Register) : (reg r).Known W D :=
  trivial

@[simp] theorem known_imm (value : Int) : (imm value).Known W D :=
  trivial

@[simp] theorem known_accumulator : accumulator.Known W D :=
  trivial

end Operand

end Assembly

/-- The numbers and names in the expression. -/
def Expr.spellings : Expr → List String
  | number digits _ => [digits]
  | var name _ => [name]
  | unary _ operand _ => operand.spellings
  | binary _ left right _ => left.spellings ++ right.spellings
  | assign _ target value _ => target.spellings ++ value.spellings

namespace Lowering

open Assembly
open Machine (labels label?)

theorem labels_append (code block : List Instruction) :
    labels (code ++ block) = labels code ++ labels block :=
  List.filterMap_append

/-- The instruction works on known operands. -/
def Works (W : String → Prop) (D : Int → Prop) (i : Instruction) : Prop :=
  i.isWork = true ∧ ∀ op ∈ i.operands, op.Known W D

/-- Work without a variable is work under any conditions. -/
theorem Works.of_false {W : String → Prop} {D : Int → Prop} {i : Instruction}
    (h : Works (fun _ => False) (fun _ => False) i) : Works W D i := by
  refine ⟨h.1, fun op hop => ?_⟩
  have hknown := h.2 op hop
  cases op with
  | reg | imm => trivial
  | literal => exact hknown.elim
  | mem => exact hknown.2.elim

section Blocks

variable {W : String → Prop} {D : Int → Prop} {slot : Operand}

theorem works_truth (c : Condition) {rhs : Operand} (h : rhs.Known W D) : ∀ i ∈ truth c rhs, Works W D i := by
  simp [truth, Works, Instruction.isWork, Instruction.operands, h]

theorem works_arith (op : ArithOp) : ∀ i ∈ op.code, Works W D i := by
  cases op <;> simp [ArithOp.code, Works, Instruction.isWork, Instruction.operands]

theorem works_store (h : slot.Known W D) (op : AssignOp) : ∀ i ∈ store slot op, Works W D i := by
  cases op with
  | plain => simp [store, Works, Instruction.isWork, Instruction.operands, h]
  | compound op =>
    have hends : ∀ i ∈ [.movl accumulator (.reg op.scratch), .movl slot accumulator] ++
        [.movl accumulator slot], Works W D i := by
      simp [Works, Instruction.isWork, Instruction.operands, h]
    obtain ⟨hloads, hstores⟩ := List.forall_mem_append.1 hends
    exact List.forall_mem_append.2 ⟨List.forall_mem_append.2 ⟨hloads, works_arith op⟩, hstores⟩

theorem works_stepBefore (h : slot.Known W D) (op : StepOp) : ∀ i ∈ stepBefore slot op, Works W D i := by
  cases op <;> simp [stepBefore, Works, Instruction.isWork, Instruction.operands, h]

theorem works_stepAfter (h : slot.Known W D) (op : StepOp) : ∀ i ∈ stepAfter slot op, Works W D i := by
  cases op <;> simp [stepAfter, Works, Instruction.isWork, Instruction.operands, h]

end Blocks

/-- Code that is put together from blocks of `P`s. It takes `n` labels, from the number `first` on. -/
inductive Woven (P : Instruction → Prop) : Nat → Nat → List Instruction → Prop
  | block {first : Nat} {code : List Instruction} (h : ∀ i ∈ code, P i) : Woven P first 0 code
  | append {first n m : Nat} {code more : List Instruction} (h : Woven P first n code)
      (h' : Woven P (first + n) m more) : Woven P first (n + m) (code ++ more)
  /-- The value of the right operand is on the stack while the left one is worked out. -/
  | operands {first n m : Nat} {right left after : List Instruction} {r : Register}
      (hright : Woven P first n right) (hleft : Woven P (first + n) m left) (hr : r = .ebx ∨ r = .ecx)
      (h : ∀ i ∈ after, P i) :
      Woven P first (n + m) (right ++ ([.pushl accumulator] ++ (left ++ (.popl r :: after))))
  /-- The right operand is jumped over if the left one decides. -/
  | logical {first n m : Nat} {left right : List Instruction} (isAnd : Bool)
      (hleft : Woven P (first + 2) n left) (hright : Woven P (first + 2 + n) m right) :
      Woven P first (2 + n + m)
        (left ++ (branch isAnd (Labels.name first) (Labels.name (first + 1)) ++ [.label (Labels.name first)] ++
          (right ++ (toBoolean ++ [.label (Labels.name (first + 1))]))))

/-- What blocks are woven together with: temporaries, labels and jumps to them, and work without a variable. -/
inductive Thread : Instruction → Prop
  | push : Thread (.pushl accumulator)
  | pop (r : Register) : Thread (.popl r)
  | label (n : Nat) : Thread (.label (Labels.name n))
  | jump (n : Nat) : Thread (.jmp (Labels.name n))
  | branch (c : Condition) (n : Nat) : Thread (.jcc c (Labels.name n))
  | work {i : Instruction} (h : Works (fun _ => False) (fun _ => False) i) : Thread i

theorem Woven.forall_mem {P Q : Instruction → Prop} {first n : Nat} {code : List Instruction}
    (h : Woven P first n code) (hP : ∀ i, P i → Q i) (hthread : ∀ i, Thread i → Q i) : ∀ i ∈ code, Q i := by
  have hthreads : ∀ {block : List Instruction}, (∀ i ∈ block, Thread i) → ∀ i ∈ block, Q i :=
    fun hblock i hi => hthread i (hblock i hi)
  induction h with
  | block h => exact fun i hi => hP i (h i hi)
  | append _ _ ih ih' => exact List.forall_mem_append.2 ⟨ih, ih'⟩
  | @operands first n m right left after r _ _ _ h ih ih' =>
    have hafter : ∀ i ∈ .popl r :: after, Q i :=
      List.forall_mem_cons.2 ⟨hthread _ (.pop r), fun i hi => hP i (h i hi)⟩
    have hpush : ∀ i ∈ [.pushl accumulator], Q i := List.forall_mem_singleton.2 (hthread _ .push)
    exact List.forall_mem_append.2 ⟨ih, List.forall_mem_append.2 ⟨hpush, List.forall_mem_append.2 ⟨ih', hafter⟩⟩⟩
  | @logical first n m left right isAnd _ _ ih ih' =>
    have hcompare : Thread (.cmpl (.imm 0) accumulator) := .work ⟨rfl, by simp [Instruction.operands]⟩
    have hset : Thread (.movl (.imm 1) accumulator) := .work ⟨rfl, by simp [Instruction.operands]⟩
    have hbranch : ∀ i ∈ branch isAnd (Labels.name first) (Labels.name (first + 1)) ++
        [.label (Labels.name first)], Thread i := by
      cases isAnd <;> simp [branch, hcompare, hset, Thread.label, Thread.jump, Thread.branch]
    have hboolean : ∀ i ∈ toBoolean ++ [.label (Labels.name (first + 1))], Thread i :=
      List.forall_mem_append.2 ⟨fun i hi => .work (works_truth .notEqual (Operand.known_imm 0) i hi),
        List.forall_mem_singleton.2 (.label (first + 1))⟩
    exact List.forall_mem_append.2 ⟨ih, List.forall_mem_append.2 ⟨hthreads hbranch,
      List.forall_mem_append.2 ⟨ih', hthreads hboolean⟩⟩⟩

namespace Fault

/-- A lowering cannot go on after such a fault. -/
def isFinal : Fault → Bool
  | undefined _ _ | noLabel => true
  | redefined _ _ | notAssignable _ => false

/-- The fault is final, and a variable that it names is a word in `W`. -/
def Stops (W : String → Prop) : Fault → Prop
  | undefined name _ => W name
  | noLabel => True
  | redefined _ _ | notAssignable _ => False

end Fault

/-- What was reported up to where `k` labels are taken: nothing final, and nothing at all exactly if `ok` holds and
`n` labels are left, which then are those taken. -/
structure Tally (ok : Prop) (n : Nat) (l : Labels) (faults : List Fault) (k : Nat) : Prop where
  goesOn : ∀ fault ∈ faults, fault.isFinal = false
  faultless : faults = [] ↔ ok ∧ n ≤ l.limit - l.count
  taken : faults = [] → k = n

section Tally

variable {ok ok' : Prop} {n m k k' : Nat} {l : Labels} {faults faults' : List Fault}

theorem tally_nil : Tally True 0 l [] 0 :=
  ⟨List.forall_mem_nil _, ⟨fun _ => ⟨trivial, Nat.zero_le _⟩, fun _ => rfl⟩, fun _ => rfl⟩

theorem Tally.append (h : Tally ok n l faults k) (h' : Tally ok' m (l.skip k) faults' k') :
    Tally (ok ∧ ok') (n + m) l (faults ++ faults') (k + k') := by
  have hroom : (l.skip k).limit - (l.skip k).count = l.limit - (l.count + k) := rfl
  have hrest := h'.faultless
  rw [hroom] at hrest
  refine ⟨List.forall_mem_append.2 ⟨h.goesOn, h'.goesOn⟩, ?_, fun hnil => ?_⟩
  · rw [List.append_eq_nil_iff]
    constructor
    · rintro ⟨hnil, hnil'⟩
      obtain ⟨hok, hn⟩ := h.faultless.1 hnil
      obtain ⟨hok', hm⟩ := hrest.1 hnil'
      have hk := h.taken hnil
      exact ⟨⟨hok, hok'⟩, by omega⟩
    · rintro ⟨⟨hok, hok'⟩, hroom⟩
      have hnil := h.faultless.2 ⟨hok, by omega⟩
      have hk := h.taken hnil
      exact ⟨hnil, hrest.2 ⟨hok', by omega⟩⟩
  · obtain ⟨hnil, hnil'⟩ := List.append_eq_nil_iff.1 hnil
    rw [h.taken hnil, h'.taken hnil']

/-- A stop after some of the labels are taken. -/
theorem Tally.not_append (h : Tally ok n l faults k)
    (h' : ¬ (ok' ∧ m ≤ (l.skip k).limit - (l.skip k).count)) :
    ¬ ((ok ∧ ok') ∧ n + m ≤ l.limit - l.count) := by
  rintro ⟨⟨hok, hok'⟩, hroom⟩
  have hk := h.taken (h.faultless.2 ⟨hok, by omega⟩)
  refine h' ⟨hok', ?_⟩
  show m ≤ l.limit - (l.count + k)
  omega

end Tally

namespace Emit

variable {α β : Type} {W : String → Prop} {P : Instruction → Prop} {x : Emit α} {y : Emit β}
  {f : α → Emit β} {ok ok' : Prop} {n m k : Nat} {post : α → Prop} {post' : β → Prop} {l : Labels}

/-- The lowering stops from the labels `l`. -/
def StopsAt (W : String → Prop) (x : Emit α) (ok : Prop) (n : Nat) (l : Labels) : Prop :=
  ∃ fault code faults k, x l = ⟨.error fault, code, faults, l.skip k⟩ ∧ fault.Stops W ∧
    (∀ fault ∈ faults, fault.isFinal = false) ∧ ¬ (ok ∧ n ≤ l.limit - l.count)

/-- The lowering comes to a value from the labels `l`. -/
def ComesTo (P : Instruction → Prop) (x : Emit α) (ok : Prop) (n : Nat) (post : α → Prop) (l : Labels) : Prop :=
  ∃ a code faults k, x l = ⟨.ok a, code, faults, l.skip k⟩ ∧ post a ∧ Woven P l.count k code ∧
    Tally ok n l faults k

/-- What a lowering comes to, whatever labels are left. -/
def Account (W : String → Prop) (P : Instruction → Prop) (x : Emit α) (ok : Prop) (n : Nat) (post : α → Prop) :
    Prop :=
  ∀ l, ComesTo P x ok n post l ∨ StopsAt W x ok n l

theorem Account.of_iff (h : Account W P x ok n post) (hok : ok ↔ ok') (hn : n = m) : Account W P x ok' m post := by
  rw [← propext hok, ← hn]
  exact h

/-- A lowering that runs through keeps to its scope and takes just the labels it needs. -/
theorem Account.of_yields (h : Account W P x ok n post) {a : α} {code : List Instruction} {l' : Labels}
    (hy : x.Yields l a code l') : ok ∧ post a ∧ Woven P l.count n code := by
  rcases h l with ⟨_, _, faults, k, hx, ha, hcode, htally⟩ | ⟨fault, _, _, k, hx, -⟩
  · obtain ⟨⟩ := hx.symm.trans hy
    rw [htally.taken rfl] at hcode
    exact ⟨(htally.faultless.1 rfl).1, ha, hcode⟩
  · exact nomatch hx.symm.trans hy

theorem account_pure {a : α} (ha : post a) : Account W P (Pure.pure a : Emit α) True 0 post :=
  fun _ => .inl ⟨a, [], [], 0, rfl, ha, .block (List.forall_mem_nil _), tally_nil⟩

theorem account_emit {block : List Instruction} (h : ∀ i ∈ block, P i) :
    Account W P (emit block) True 0 fun _ => True :=
  fun _ => .inl ⟨(), block, [], 0, rfl, trivial, .block h, tally_nil⟩

theorem account_stop {fault : Fault} (h : fault.Stops W) (hok : ¬ ok) :
    Account W P (stop fault : Emit α) ok n post :=
  fun _ => .inr ⟨fault, [], [], 0, rfl, h, List.forall_mem_nil _, fun hall => hok hall.1⟩

theorem account_report {fault : Fault} (h : fault.isFinal = false) (hok : ¬ ok) :
    Account W P (report fault) ok n fun _ => True := by
  intro l
  have htally : Tally ok n l [fault] 0 :=
    ⟨List.forall_mem_singleton.2 h, ⟨(nomatch ·), fun hall => absurd hall.1 hok⟩, (nomatch ·)⟩
  exact .inl ⟨(), [], [fault], 0, rfl, trivial, .block (List.forall_mem_nil _), htally⟩

theorem StopsAt.bind (h : StopsAt W x ok n l) : StopsAt W (x >>= f) (ok ∧ ok') (n + m) l := by
  obtain ⟨fault, code, faults, k, hx, hstops, hgoesOn, hfaulty⟩ := h
  refine ⟨fault, code, faults, k, bind_of_error hx, hstops, hgoesOn, fun hall => hfaulty ⟨hall.1.1, ?_⟩⟩
  have hroom := hall.2
  omega

/-- A stop in what follows a lowering. -/
theorem StopsAt.after {a : α} {code : List Instruction} {faults : List Fault}
    (h : StopsAt W (f a) ok' m (l.skip k)) (hx : x l = ⟨.ok a, code, faults, l.skip k⟩)
    (htally : Tally ok n l faults k) : StopsAt W (x >>= f) (ok ∧ ok') (n + m) l := by
  obtain ⟨fault, more, faults', k', hy, hstops, hgoesOn, hfaulty⟩ := h
  refine ⟨fault, code ++ more, faults ++ faults', k + k', ?_, hstops,
    List.forall_mem_append.2 ⟨htally.goesOn, hgoesOn⟩, htally.not_append hfaulty⟩
  rw [bind_of_ok hx, hy, l.skip_skip]

theorem Account.bind (h : Account W P x ok n post) (hf : ∀ a, post a → Account W P (f a) ok' m post') :
    Account W P (x >>= f) (ok ∧ ok') (n + m) post' := by
  intro l
  rcases h l with ⟨a, code, faults, k, hx, ha, hcode, htally⟩ | hstops
  · rcases hf a ha (l.skip k) with ⟨b, more, faults', k', hy, hb, hmore, htally'⟩ | hstops
    · refine .inl ⟨b, code ++ more, faults ++ faults', k + k', ?_, hb, hcode.append hmore, htally.append htally'⟩
      rw [bind_of_ok hx, hy, l.skip_skip]
    · exact .inr (hstops.after hx htally)
  · exact .inr hstops.bind

/-- Instructions after a lowering. -/
theorem Account.andEmit (h : Account W P x ok n post) {block : α → List Instruction}
    (hb : ∀ a, post a → ∀ i ∈ block a, P i) :
    Account W P (do let a ← x; emit (block a)) ok n fun _ => True :=
  (h.bind fun a ha => account_emit (hb a ha)).of_iff (Iff.of_eq (and_true ok)) rfl

/-- Two lowerings, each with instructions after it. How the code is woven is left to what these instructions are. -/
theorem Account.alternate (h : Account W P x ok n post) (h' : Account W P y ok' m post')
    (before after : List Instruction) (l : Labels) :
    (∃ first second faults k k',
      (do let _ ← x; emit before; let _ ← y; emit after : Emit Unit) l =
        ⟨.ok (), first ++ (before ++ (second ++ after)), faults, l.skip (k + k')⟩ ∧
      Woven P l.count k first ∧ Woven P (l.count + k) k' second ∧ Tally (ok ∧ ok') (n + m) l faults (k + k')) ∨
    StopsAt W (do let _ ← x; emit before; let _ ← y; emit after : Emit Unit) (ok ∧ ok') (n + m) l := by
  rcases h l with ⟨a, first, faults, k, hx, -, hfirst, htally⟩ | hstops
  · have hbefore : emit before (l.skip k) = ⟨.ok (), before, [], l.skip k⟩ := rfl
    rcases h' (l.skip k) with ⟨b, second, faults', k', hy, -, hsecond, htally'⟩ |
      ⟨fault, code, faults', k', hy, hstops, hgoesOn, hfaulty⟩
    · refine .inl ⟨first, second, faults ++ faults', k, k', ?_, hfirst, hsecond, htally.append htally'⟩
      rw [bind_of_ok hx, bind_of_ok hbefore, bind_of_ok hy, ← l.skip_skip]
      simp [emit]
    · refine .inr (StopsAt.after ⟨fault, before ++ code, faults', k', ?_, hstops, hgoesOn, hfaulty⟩ hx htally)
      rw [bind_of_ok hbefore, bind_of_error hy]
      rfl
  · exact .inr hstops.bind

end Emit

open Emit

variable {W : String → Prop} {D : Int → Prop} {P : Instruction → Prop}

section Operators

variable {x y : Emit Unit} {ok ok' : Prop} {n m : Nat} {p q : Unit → Prop}

theorem account_operands {r : Register} {after : List Instruction} (hright : Account W P x ok n p)
    (hleft : Account W P y ok' m q) (hr : r = .ebx ∨ r = .ecx) (h : ∀ i ∈ after, P i) :
    Account W P (do x; emit [.pushl accumulator]; y; emit (.popl r :: after)) (ok ∧ ok') (n + m) fun _ => True := by
  intro l
  rcases hright.alternate hleft [.pushl accumulator] (.popl r :: after) l with
    ⟨first, second, faults, k, k', hrun, hfirst, hsecond, htally⟩ | hstops
  · exact .inl ⟨(), _, faults, k + k', hrun, trivial, .operands hfirst hsecond hr h, htally⟩
  · exact .inr hstops

/-- Both labels are taken before anything else. -/
theorem shortCircuit_eq (isAnd : Bool) {l : Labels} (h : 2 ≤ l.limit - l.count) :
    shortCircuit isAnd x y l =
      (do
        x
        emit (branch isAnd (Labels.name l.count) (Labels.name (l.count + 1)) ++ [.label (Labels.name l.count)])
        y
        emit (toBoolean ++ [.label (Labels.name (l.count + 1))]) : Emit Unit) (l.skip 2) := by
  have hskipped := freshLabel_eq (show l.count < l.limit by omega)
  have hfinish := freshLabel_eq (l := l.skip 1) (show l.count + 1 < l.limit by omega)
  rw [shortCircuit, bind_of_ok hskipped, bind_of_ok hfinish, l.skip_skip]
  rfl

theorem shortCircuit_eq_error (isAnd : Bool) {l : Labels} (h : ¬ 2 ≤ l.limit - l.count) :
    ∃ k, shortCircuit isAnd x y l = ⟨.error .noLabel, [], [], l.skip k⟩ := by
  by_cases hlt : l.count < l.limit
  · have hfinish := freshLabel_eq_error (l := l.skip 1) (show ¬ l.count + 1 < l.limit by omega)
    refine ⟨1, ?_⟩
    rw [shortCircuit, bind_of_ok (freshLabel_eq hlt), bind_of_error hfinish]
    rfl
  · refine ⟨0, ?_⟩
    rw [shortCircuit, bind_of_error (freshLabel_eq_error hlt)]
    rfl

theorem account_shortCircuit (isAnd : Bool) (h : Account W P x ok n p) (h' : Account W P y ok' m q) :
    Account W P (shortCircuit isAnd x y) (ok ∧ ok') (2 + n + m) fun _ => True := by
  intro l
  have hroom : (l.skip 2).limit - (l.skip 2).count = l.limit - (l.count + 2) := rfl
  by_cases htwo : 2 ≤ l.limit - l.count
  · rcases h.alternate h' (branch isAnd (Labels.name l.count) (Labels.name (l.count + 1)) ++
        [.label (Labels.name l.count)]) (toBoolean ++ [.label (Labels.name (l.count + 1))]) (l.skip 2) with
      ⟨left, right, faults, k, k', hrun, hleft, hright, htally⟩ |
        ⟨fault, code, faults, k, hrun, hstops, hgoesOn, hfaulty⟩
    · have hwoven := Woven.logical isAnd hleft hright
      refine .inl ⟨(), _, faults, 2 + k + k', ?_, trivial, hwoven, htally.goesOn, ?_, fun hnil => ?_⟩
      · rw [shortCircuit_eq isAnd htwo, hrun, l.skip_skip, Nat.add_assoc]
      · rw [htally.faultless, hroom]
        exact and_congr_right fun _ => by omega
      · have hk := htally.taken hnil
        omega
    · refine .inr ⟨fault, code, faults, 2 + k, ?_, hstops, hgoesOn, fun hall => hfaulty ⟨hall.1, ?_⟩⟩
      · rw [shortCircuit_eq isAnd htwo, hrun, l.skip_skip]
      · rw [hroom]
        omega
  · obtain ⟨k, hrun⟩ := shortCircuit_eq_error (x := x) (y := y) isAnd htwo
    exact .inr ⟨.noLabel, [], [], k, hrun, trivial, List.forall_mem_nil _, fun hall => htwo (by omega)⟩

end Operators

/-- The names that have a slot are those declared in the past. -/
def Tracks (slots : Slots) (past : List Mention) : Prop :=
  ∀ name, name ∈ slots.names ↔ Mention.declaration name ∈ past

variable {slots : Slots} {past : List Mention}

theorem Tracks.uses (h : Tracks slots past) {ms : List Mention}
    (hms : ∀ name, Mention.declaration name ∉ ms) : Tracks slots (past ++ ms) := by
  intro name
  rw [h name, List.mem_append, or_iff_left (hms name)]

theorem Tracks.expr (h : Tracks slots past) (e : Expr) : Tracks slots (past ++ e.mentions) :=
  h.uses e.declaration_notMem

theorem Tracks.declare (h : Tracks slots past) (name : String) :
    Tracks (slots.declare name) (past ++ [.declaration name]) := by
  intro other
  unfold Slots.declare
  split
  · next hmem =>
    rw [h other, List.mem_append, List.mem_singleton, Mention.declaration.injEq]
    refine ⟨.inl, ?_⟩
    rintro (hother | rfl)
    · exact hother
    · exact (h other).1 hmem
  · rw [List.mem_append, List.mem_append, h other, List.mem_singleton, List.mem_singleton,
      Mention.declaration.injEq]

/-- The word in the frame at a displacement in `D`. -/
def InSlot (D : Int → Prop) (slot : Operand) : Prop :=
  ∃ displacement, slot = .frame displacement ∧ D displacement

theorem InSlot.known {slot : Operand} (h : InSlot D slot) : slot.Known W D := by
  obtain ⟨displacement, rfl, hd⟩ := h
  exact ⟨rfl, hd⟩

/-- The variables that are known, and what code may be made of while they are: instructions that work on their slots
and on numbers spelled by words. -/
structure Setting (W : String → Prop) (D : Int → Prop) (P : Instruction → Prop) (slots : Slots)
    (past : List Mention) : Prop where
  tracks : Tracks slots past
  slot : ∀ name displacement, slots.offset? name = some displacement → D displacement
  work : ∀ i, Works W D i → P i

theorem account_variableSlot (h : Setting W D P slots past) {name : String} (hW : W name) (pos : Position) :
    Account W P (variableSlot slots name pos) (name ∈ slots.names) 0 (InSlot D) := by
  unfold variableSlot
  split
  · next displacement hd =>
    have hmem : name ∈ slots.names := Slots.isSome_offset?_iff.1 (Option.isSome_of_eq_some hd)
    exact (account_pure ⟨displacement, rfl, h.slot name displacement hd⟩).of_iff (iff_of_true trivial hmem) rfl
  · next hd => exact account_stop hW (Slots.offset?_eq_none_iff.1 hd)

/-- Nothing but a variable can be a target. The word that stands in for another one has to be known if it gets that
far. -/
theorem account_targetSlot (h : Setting W D P slots past) (t : Expr) (hW : ∀ word ∈ t.spellings, W word)
    (hzero : Scoped past (.target t :: t.mentions) ∨ D 0) :
    Account W P (targetSlot slots t) (Scoped past (.target t :: t.mentions)) (2 * t.logicals) (InSlot D) := by
  have hreported : t.var? = none →
      Account W P (do report (.notAssignable t.pos); Pure.pure (.frame 0) : Emit Operand)
        (Scoped past (.target t :: t.mentions)) (2 * t.logicals) (InSlot D) := by
    intro ht
    have hbroken : ¬ Scoped past (.target t :: t.mentions) := by
      intro hscoped
      obtain ⟨name, hname, -⟩ := (scoped_target t).1 hscoped
      rw [ht] at hname
      cases hname
    have hslot : InSlot D (.frame 0) := ⟨0, rfl, hzero.resolve_left hbroken⟩
    refine ((account_report rfl hbroken).bind fun _ _ => account_pure hslot).of_iff ?_ (Nat.add_zero _)
    exact Iff.of_eq (and_true _)
  cases t with
  | var name pos =>
    refine (account_variableSlot h (hW name List.mem_cons_self) pos).of_iff ?_ rfl
    rw [scoped_target, h.tracks name]
    exact ⟨fun hd => ⟨name, rfl, hd⟩, fun ⟨_, hname, hd⟩ => Option.some.inj hname ▸ hd⟩
  | number | unary | binary | assign => exact hreported rfl

/-- Operands that are worked out from right to left. -/
theorem account_binary (h : Setting W D P slots past) {left right : Expr} {r : Register}
    {after : List Instruction}
    (hleft : Account W P (expr slots left) (Scoped past left.mentions) (2 * left.logicals) fun _ => True)
    (hright : Account W P (expr slots right) (Scoped past right.mentions) (2 * right.logicals) fun _ => True)
    (hr : r = .ebx ∨ r = .ecx) (ha : ∀ i ∈ after, Works W D i) :
    Account W P (do expr slots right; emit [.pushl accumulator]; expr slots left; emit (.popl r :: after))
      (Scoped past (left.mentions ++ right.mentions)) (2 * (left.logicals + right.logicals)) fun _ => True := by
  refine (account_operands hright hleft hr fun i hi => h.work i (ha i hi)).of_iff ?_ ?_
  · rw [scoped_after_expr, and_comm]
  · omega

/-- An expression is lowered without a fault exactly if it keeps to its scope, given two labels for each
logical operator in it. -/
theorem account_expr (h : Setting W D P slots past) (e : Expr) (hW : ∀ word ∈ e.spellings, W word)
    (hzero : Scoped past e.mentions ∨ D 0) :
    Account W P (expr slots e) (Scoped past e.mentions) (2 * e.logicals) fun _ => True := by
  induction e with
  | number digits pos =>
    have hdigits : (Operand.literal digits).Known W D := hW digits List.mem_cons_self
    refine (account_emit fun i hi => h.work i ?_).of_iff (iff_of_true trivial scoped_nil) rfl
    revert i
    simp [Works, Instruction.isWork, Instruction.operands, hdigits]
  | var name pos =>
    have hslot := account_variableSlot h (hW name List.mem_cons_self) pos
    refine (hslot.andEmit fun slot hslot i hi => h.work i ?_).of_iff ?_ rfl
    · have hknown : slot.Known W D := hslot.known
      revert i
      simp [Works, Instruction.isWork, Instruction.operands, hknown]
    · simp [Expr.mentions, scoped_cons, scoped_nil, Mention.Allowed, h.tracks name]
  | unary op operand pos ih =>
    cases op with
    | neg | bitNot =>
      refine (ih hW hzero).andEmit fun _ _ i hi => h.work i ?_
      revert i
      simp [Works, Instruction.isWork, Instruction.operands]
    | logNot =>
      exact (ih hW hzero).andEmit fun _ _ i hi => h.work i (works_truth _ (Operand.known_imm 0) i hi)
    | before op =>
      refine (account_targetSlot h operand hW hzero).andEmit fun slot hslot i hi => h.work i ?_
      exact works_stepBefore hslot.known op i hi
    | after op =>
      refine (account_targetSlot h operand hW hzero).andEmit fun slot hslot i hi => h.work i ?_
      exact works_stepAfter hslot.known op i hi
  | binary op left right pos hleft hright =>
    obtain ⟨hWl, hWr⟩ := List.forall_mem_append.1 hW
    have hscoped : Scoped past (left.mentions ++ right.mentions) ↔ _ := scoped_after_expr left
    have hl := hleft hWl (hzero.imp_left fun hs => (hscoped.1 hs).1)
    have hr := hright hWr (hzero.imp_left fun hs => (hscoped.1 hs).2)
    cases op with
    | comma =>
      refine (hl.bind fun _ _ => hr).of_iff hscoped.symm ?_
      rw [Expr.logicals_binary rfl]
      omega
    | arith op =>
      rw [Expr.logicals_binary rfl]
      have hscratch : op.scratch = .ebx ∨ op.scratch = .ecx := by cases op <;> simp [ArithOp.scratch]
      exact account_binary h hl hr hscratch (works_arith op)
    | compare op =>
      rw [Expr.logicals_binary rfl]
      exact account_binary h hl hr (.inl rfl) (works_truth _ (Operand.known_reg .ebx))
    | logAnd =>
      refine (account_shortCircuit true hl hr).of_iff hscoped.symm ?_
      rw [Expr.logicals_logical rfl]
      omega
    | logOr =>
      refine (account_shortCircuit false hl hr).of_iff hscoped.symm ?_
      rw [Expr.logicals_logical rfl]
      omega
  | assign op target value pos _ hvalue =>
    obtain ⟨hWt, hWv⟩ := List.forall_mem_append.1 hW
    have hscoped : Scoped past (.target target :: (target.mentions ++ value.mentions)) ↔ _ :=
      scoped_after_target target
    have ht := account_targetSlot h target hWt (hzero.imp_left fun hs => (hscoped.1 hs).1)
    have hv := hvalue hWv (hzero.imp_left fun hs => (hscoped.1 hs).2)
    refine (ht.bind fun slot hslot => hv.andEmit fun _ _ i hi => h.work i ?_).of_iff hscoped.symm ?_
    · exact works_store hslot.known op i hi
    · rw [Expr.logicals]
      omega

end Lowering

end SmallC
