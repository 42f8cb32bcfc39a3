import SmallC.Grammar.Program
import SmallC.Lowering.Emit

/-!
# Moving positions

Positions take no part in what a program means: they are carried along from the tokens to the tree and on to
the problems. Here a function on positions is applied to everything that carries them. That a part of the
compiler only carries them is then an equation: it does not matter whether positions are moved before it or
after it.
-/
namespace SmallC

section

variable (φ : Position → Position)

def Token.relocate (t : Token) : Token :=
  { t with pos := φ t.pos }

def TokenStream.relocate (s : TokenStream) : TokenStream :=
  ⟨s.tokens.map (Token.relocate φ), φ s.ending⟩

namespace Expr

def relocate : Expr → Expr
  | number digits pos => number digits (φ pos)
  | var name pos => var name (φ pos)
  | unary op operand pos => unary op operand.relocate (φ pos)
  | binary op left right pos => binary op left.relocate right.relocate (φ pos)
  | assign op target value pos => assign op target.relocate value.relocate (φ pos)

end Expr

def TypeName.relocate (type : TypeName) : TypeName :=
  ⟨type.name, φ type.pos⟩

namespace Stmt

mutual

def relocate : Stmt → Stmt
  | block body pos => block (relocateAll body) (φ pos)
  | returns value pos => returns (value.relocate φ) (φ pos)
  | expr value pos => expr (value.relocate φ) (φ pos)
  | declare type name init pos =>
    declare (type.relocate φ) name (init.map (Expr.relocate φ)) (φ pos)

def relocateAll : List Stmt → List Stmt
  | [] => []
  | s :: more => s.relocate :: relocateAll more

end

end Stmt

def Block.relocate (b : Block) : Block :=
  ⟨Stmt.relocateAll φ b.body, φ b.pos⟩

def Param.relocate (p : Param) : Param :=
  ⟨p.type.relocate φ, p.name, φ p.pos⟩

def Function.relocate (f : Function) : Function :=
  ⟨f.returnType.relocate φ, f.name, f.params.map (Param.relocate φ), f.body.relocate φ, φ f.pos⟩

def TranslationUnit.relocate (u : TranslationUnit) : TranslationUnit :=
  ⟨u.functions.map (Function.relocate φ)⟩

def Problem.relocate : Problem → Problem
  | .lexical message pos => .lexical message (φ pos)
  | .syntactic message pos => .syntactic message (φ pos)
  | .semantic message pos => .semantic message (φ pos)
  | .generation message => .generation message
  | .io message => .io message

def Grammar.Remark.relocate : Grammar.Remark → Grammar.Remark
  | .lexical message pos => .lexical message (φ pos)
  | .mistake wanted pos silenced => .mistake wanted (φ pos) silenced
  | .recovery => .recovery

def Lowering.Fault.relocate : Lowering.Fault → Lowering.Fault
  | .undefined name pos => .undefined name (φ pos)
  | .redefined name pos => .redefined name (φ pos)
  | .notAssignable pos => .notAssignable (φ pos)
  | .noLabel => .noLabel

end

theorem Expr.relocate_id (e : Expr) : e.relocate id = e := by
  induction e <;> simp_all [relocate]

mutual

theorem Stmt.relocate_id : ∀ s : Stmt, s.relocate id = s
  | .block body _ => by rw [relocate, relocateAll_id body, id]
  | .returns value _ => by rw [relocate, value.relocate_id, id]
  | .expr value _ => by rw [relocate, value.relocate_id, id]
  | .declare type name init _ => by
    have hexpr : Expr.relocate id = id := funext Expr.relocate_id
    rw [relocate, hexpr, Option.map_id]
    rfl

theorem Stmt.relocateAll_id : ∀ body : List Stmt, relocateAll id body = body
  | [] => rfl
  | s :: more => by rw [relocateAll, relocate_id s, relocateAll_id more]

end

theorem Function.relocate_id (f : Function) : f.relocate id = f := by
  have hparam : Param.relocate id = id := rfl
  rw [relocate, hparam, List.map_id, Block.relocate, Stmt.relocateAll_id]
  rfl

theorem Lowering.Fault.relocate_id (f : Lowering.Fault) : f.relocate id = f := by
  cases f <;> rfl

variable {φ : Position → Position}

theorem Token.kind_relocate (t : Token) : (t.relocate φ).kind = t.kind :=
  rfl

theorem Grammar.Remark.problem?_relocate (m : Grammar.Remark) :
    (m.relocate φ).problem? = m.problem?.map (Problem.relocate φ) := by
  cases m with
  | lexical | recovery => rfl
  | mistake wanted pos silenced => cases silenced <;> rfl

theorem Grammar.Remark.isFault_relocate (m : Grammar.Remark) : (m.relocate φ).isFault = m.isFault := by
  cases m <;> rfl

theorem Lowering.Fault.problem_relocate (f : Lowering.Fault) :
    (f.relocate φ).problem = f.problem.relocate φ := by
  cases f <;> rfl

end SmallC
