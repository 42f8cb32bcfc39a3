import Mathlib.Algebra.Ring.Nat
import SmallC.Tree

/-!
# Scopes

Which programs make sense, said of their text alone. A function is gone through in the order in which it is
written, blocks included, and comes to a list of what is mentioned in it. Each mention is judged by the
ones before it: a name is used after its declaration and declared once, and only a variable is assigned to
or stepped.
-/
namespace SmallC

/-- What the text of a function mentions. -/
inductive Mention where
  /-- A variable is read, assigned to or stepped. -/
  | use (name : String)
  /-- An expression is assigned to or stepped. -/
  | target (e : Expr)
  | declaration (name : String)
  deriving DecidableEq

namespace Mention

/-- The mention makes sense after the ones in `past`. -/
def Allowed (past : List Mention) : Mention → Prop
  | use name => declaration name ∈ past
  | target e => e.var?.isSome = true
  | declaration name => declaration name ∉ past

instance (past : List Mention) : (m : Mention) → Decidable (m.Allowed past)
  | use name => inferInstanceAs (Decidable (declaration name ∈ past))
  | target e => inferInstanceAs (Decidable (e.var?.isSome = true))
  | declaration name => inferInstanceAs (Decidable (declaration name ∉ past))

/-- All that matters of the past is what was declared. -/
theorem allowed_congr {past past' : List Mention}
    (h : ∀ name, declaration name ∈ past ↔ declaration name ∈ past') (m : Mention) :
    m.Allowed past ↔ m.Allowed past' := by
  cases m with
  | use name => exact h name
  | target e => exact Iff.rfl
  | declaration name => exact not_congr (h name)

end Mention

def Expr.mentions : Expr → List Mention
  | number _ _ => []
  | var name _ => [.use name]
  | unary op operand _ => (if op.isStep then [.target operand] else []) ++ operand.mentions
  | binary _ left right _ => left.mentions ++ right.mentions
  | assign _ target value _ => .target target :: (target.mentions ++ value.mentions)

namespace Stmt

mutual

/-- A name is declared once its initial value has been gone through. -/
def mentions : Stmt → List Mention
  | block body _ => mentionsAll body
  | returns value _ => value.mentions
  | expr value _ => value.mentions
  | declare _ name init _ => (init.map Expr.mentions).getD [] ++ [.declaration name]

def mentionsAll : List Stmt → List Mention
  | [] => []
  | s :: more => s.mentions ++ mentionsAll more

end

end Stmt

/-- Every mention is allowed after `past` and the mentions in front of it. -/
def Scoped (past ms : List Mention) : Prop :=
  ∀ before m after, ms = before ++ m :: after → m.Allowed (past ++ before)

/-- Nothing is mentioned in the function that makes no sense there. -/
def Function.WellScoped (f : Function) : Prop :=
  Scoped [] (Stmt.mentionsAll f.body.body)

variable {past past' ms a b : List Mention} {m : Mention}

theorem scoped_nil : Scoped past [] := by
  intro before m after h
  cases before <;> cases h

theorem scoped_cons : Scoped past (m :: ms) ↔ m.Allowed past ∧ Scoped (past ++ [m]) ms := by
  constructor
  · intro h
    constructor
    · have hfirst := h [] m ms rfl
      rwa [List.append_nil] at hfirst
    · intro before n after hn
      have hlater := h (m :: before) n after (by rw [hn]; rfl)
      rwa [List.append_assoc]
  · rintro ⟨hfirst, hlater⟩ before n after hn
    cases before with
    | nil =>
      obtain ⟨rfl, -⟩ := List.cons.inj hn
      rwa [List.append_nil]
    | cons first before =>
      obtain ⟨rfl, hrest⟩ := List.cons.inj hn
      have hallowed := hlater before n after hrest
      rwa [List.append_assoc] at hallowed

theorem scoped_append : Scoped past (a ++ b) ↔ Scoped past a ∧ Scoped (past ++ a) b := by
  induction a generalizing past with
  | nil =>
    rw [List.append_nil, List.nil_append]
    exact ⟨fun h => ⟨scoped_nil, h⟩, And.right⟩
  | cons m a ih =>
    rw [List.cons_append, scoped_cons, scoped_cons, ih, and_assoc, List.append_assoc]
    rfl

instance decidableScoped : (past ms : List Mention) → Decidable (Scoped past ms)
  | _, [] => isTrue scoped_nil
  | past, m :: ms =>
    have := decidableScoped (past ++ [m]) ms
    decidable_of_iff (m.Allowed past ∧ Scoped (past ++ [m]) ms) scoped_cons.symm

instance (f : Function) : Decidable f.WellScoped :=
  decidableScoped [] (Stmt.mentionsAll f.body.body)

theorem scoped_congr (h : ∀ name, Mention.declaration name ∈ past ↔ Mention.declaration name ∈ past') :
    Scoped past ms ↔ Scoped past' ms := by
  refine forall_congr' fun before => forall_congr' fun m => forall_congr' fun after => ?_
  refine imp_congr_right fun _ => Mention.allowed_congr (fun name => ?_) m
  rw [List.mem_append, List.mem_append, h name]

/-- Expressions declare nothing. -/
theorem Expr.declaration_notMem (e : Expr) (name : String) : Mention.declaration name ∉ e.mentions := by
  induction e with
  | number | var => simp [mentions]
  | unary op operand _ ih =>
    unfold mentions
    split <;> simp [ih]
  | binary _ left right _ hl hr => simp [mentions, hl, hr]
  | assign _ target value _ ht hv => simp [mentions, ht, hv]

/-- What follows mentions that declare nothing is judged as if it followed what is in front of them. -/
theorem scoped_append_uses (h : ∀ name, Mention.declaration name ∉ a) :
    Scoped past (a ++ b) ↔ Scoped past a ∧ Scoped past b := by
  rw [scoped_append]
  refine and_congr_right fun _ => scoped_congr fun name => ?_
  rw [List.mem_append, or_iff_left (h name)]

theorem scoped_after_expr (e : Expr) :
    Scoped past (e.mentions ++ ms) ↔ Scoped past e.mentions ∧ Scoped past ms :=
  scoped_append_uses e.declaration_notMem

theorem scoped_after_target (e : Expr) :
    Scoped past (.target e :: (e.mentions ++ ms)) ↔
      Scoped past (.target e :: e.mentions) ∧ Scoped past ms := by
  rw [← List.cons_append]
  refine scoped_append_uses fun name hmem => ?_
  rcases List.mem_cons.1 hmem with hfirst | hrest
  · cases hfirst
  · exact e.declaration_notMem name hrest

/-- A target is a variable that has been declared. -/
theorem scoped_target (e : Expr) :
    Scoped past (.target e :: e.mentions) ↔
      ∃ name, e.var? = some name ∧ Mention.declaration name ∈ past := by
  rw [scoped_cons]
  cases e with
  | var name pos =>
    simp [Expr.mentions, Expr.var?, scoped_cons, scoped_nil, Mention.Allowed]
  | number | unary | binary | assign => simp [Mention.Allowed, Expr.var?]

namespace BinaryOp

/-- The operator evaluates its right operand only if it has to. -/
def isLogical : BinaryOp → Bool
  | logAnd | logOr => true
  | _ => false

end BinaryOp

/-- Number of logical operators in the expression. -/
def Expr.logicals : Expr → Nat
  | number _ _ | var _ _ => 0
  | unary _ operand _ => operand.logicals
  | binary op left right _ =>
    (if op.isLogical then 1 else 0) + left.logicals + right.logicals
  | assign _ target value _ => target.logicals + value.logicals

theorem Expr.logicals_binary {op : BinaryOp} (h : op.isLogical = false) {left right : Expr}
    {pos : Position} :
    (Expr.binary op left right pos).logicals = left.logicals + right.logicals := by
  simp [logicals, h]

theorem Expr.logicals_logical {op : BinaryOp} (h : op.isLogical = true) {left right : Expr}
    {pos : Position} :
    (Expr.binary op left right pos).logicals = 1 + left.logicals + right.logicals := by
  simp [logicals, h]

namespace Stmt

mutual

/-- Number of logical operators in the statement. -/
def logicals : Stmt → Nat
  | block body _ => logicalsAll body
  | returns value _ => value.logicals
  | expr value _ => value.logicals
  | declare _ _ init _ => (init.map Expr.logicals).getD 0

def logicalsAll : List Stmt → Nat
  | [] => 0
  | s :: more => s.logicals + logicalsAll more

end

end Stmt

def Function.logicals (f : Function) : Nat :=
  Stmt.logicalsAll f.body.body

/-- Number of logical operators in the unit. -/
def TranslationUnit.logicals (u : TranslationUnit) : Nat :=
  (u.functions.map Function.logicals).sum

end SmallC
