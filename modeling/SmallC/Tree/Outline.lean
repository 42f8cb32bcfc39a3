import SmallC.Tree

/-!
# Outlines of trees

An outline lists the nodes of a tree from the root down, one to a line: two spaces for each level of
depth, the line number of the node, its kind, and its name or operator if it has one.
-/
namespace SmallC

structure OutlineLine where
  depth : Nat
  line : Nat
  node : String
  detail : String := ""
  deriving DecidableEq

namespace OutlineLine

def render (l : OutlineLine) : String :=
  String.ofList (List.replicate (2 * l.depth) ' ') ++ toString l.line ++ ":" ++ l.node ++ ":"
    ++ (if l.detail == "" then "" else " " ++ l.detail) ++ "\n"

def renderAll (ls : List OutlineLine) : String :=
  String.join (ls.map render)

end OutlineLine

/-- An operator written after its operand says so. -/
def UnaryOp.label (op : UnaryOp) : String :=
  if op.isAfter then op.spelling ++ " (postfix)" else op.spelling

def Expr.outline (depth : Nat) : Expr → List OutlineLine
  | .number digits pos => [⟨depth, pos.line, "IntegerNumberExpr", digits⟩]
  | .var name pos => [⟨depth, pos.line, "VarExpr", name⟩]
  | .unary op operand pos =>
    ⟨depth, pos.line, "UnaryOpExpr", op.label⟩ :: operand.outline (depth + 1)
  | .binary op left right pos =>
    ⟨depth, pos.line, "BinaryOpExpr", op.spelling⟩
      :: (left.outline (depth + 1) ++ right.outline (depth + 1))
  | .assign op target value pos =>
    ⟨depth, pos.line, "AssignExpr", op.spelling⟩
      :: (target.outline (depth + 1) ++ value.outline (depth + 1))

def TypeName.outline (depth : Nat) (t : TypeName) : List OutlineLine :=
  [⟨depth, t.pos.line, "BasicType", t.name⟩]

mutual

def Stmt.outline (depth : Nat) : Stmt → List OutlineLine
  | .block body pos => ⟨depth, pos.line, "BlockStmt", ""⟩ :: Stmt.outlineAll (depth + 1) body
  | .returns value pos => ⟨depth, pos.line, "ReturnStmt", ""⟩ :: value.outline (depth + 1)
  | .expr value pos => ⟨depth, pos.line, "ExprStmt", ""⟩ :: value.outline (depth + 1)
  | .declare type name init pos =>
    ⟨depth, pos.line, "VarDeclStmt", name⟩
      :: (type.outline (depth + 1) ++ (init.map (Expr.outline (depth + 1))).getD [])

def Stmt.outlineAll (depth : Nat) : List Stmt → List OutlineLine
  | [] => []
  | s :: more => s.outline depth ++ Stmt.outlineAll depth more

end

def Param.outline (depth : Nat) (p : Param) : List OutlineLine :=
  [⟨depth, p.pos.line, "TypeAndNameDecl", p.name⟩]

def Function.outline (f : Function) : List OutlineLine :=
  ⟨0, f.pos.line, "FunctionDecl", f.name⟩
    :: (f.returnType.outline 1 ++ f.params.flatMap (Param.outline 1)
      ++ Stmt.outline 1 (.block f.body.body f.body.pos))

def TranslationUnit.outline (u : TranslationUnit) : List OutlineLine :=
  u.functions.flatMap Function.outline

/-- The outline as text. -/
def TranslationUnit.print (u : TranslationUnit) : String :=
  OutlineLine.renderAll u.outline

end SmallC
