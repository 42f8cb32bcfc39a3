import SmallC.Proofs.Grammar.Derivation

/-!
# Where the nodes of a tree stand

The nodes of a tree that the grammar derives from tokens: each is made of a part of them and stands where one
token of that part stands. For an operation that token is its operator, with the operands on its sides; for a
number or a name it is the only token; for everything else it is the first one.
-/
namespace SmallC

/-- A part of a tree that has a position. -/
inductive Node where
  | expr (e : Expr)
  | typeName (type : TypeName)
  | stmt (s : Stmt)
  | block (b : Block)
  | param (p : Param)
  | function (f : Function)

namespace Stmt

def pos : Stmt → Position
  | block _ pos => pos
  | returns _ pos => pos
  | expr _ pos => pos
  | declare _ _ _ pos => pos

end Stmt

def Node.pos : Node → Position
  | expr e => e.pos
  | typeName type => type.pos
  | stmt s => s.pos
  | block b => b.pos
  | param p => p.pos
  | function f => f.pos

def Expr.nodes : Expr → List Node
  | number digits pos => [.expr (number digits pos)]
  | var name pos => [.expr (var name pos)]
  | unary op operand pos => .expr (unary op operand pos) :: operand.nodes
  | binary op left right pos => .expr (binary op left right pos) :: (left.nodes ++ right.nodes)
  | assign op target value pos => .expr (assign op target value pos) :: (target.nodes ++ value.nodes)

namespace Stmt

mutual

/-- A block is a node both as a statement and as a block. -/
def nodes : Stmt → List Node
  | block body pos => .stmt (block body pos) :: .block ⟨body, pos⟩ :: nodesAll body
  | returns value pos => .stmt (returns value pos) :: value.nodes
  | expr value pos => .stmt (expr value pos) :: value.nodes
  | declare type name init pos =>
    .stmt (declare type name init pos) :: .typeName type :: (init.map Expr.nodes).getD []

def nodesAll : List Stmt → List Node
  | [] => []
  | s :: more => s.nodes ++ nodesAll more

end

end Stmt

def Block.nodes (b : Block) : List Node :=
  .block b :: Stmt.nodesAll b.body

def Param.nodes (p : Param) : List Node :=
  [.param p, .typeName p.type]

def Function.nodes (f : Function) : List Node :=
  .function f :: .typeName f.returnType :: (f.params.flatMap Param.nodes ++ f.body.nodes)

def TranslationUnit.nodes (u : TranslationUnit) : List Node :=
  u.functions.flatMap Function.nodes

namespace Grammar

/-- The tokens are the expression, on some level. -/
def IsExpr (ts : List Token) (e : Expr) : Prop :=
  ∃ level, Derives level ts e

/-- The token is a sign of the operator. -/
def IsSign {α : Type} (table : List (Punctuator × α)) (op : α) (t : Token) : Prop :=
  ∃ p, t.kind = .punct p ∧ (p, op) ∈ table

/-- The tokens `before ++ t :: after` are the node, and `t` is the one among them that it stands for. -/
def Node.MadeOf (before : List Token) (t : Token) (after : List Token) : Node → Prop
  | .expr (.number digits _) => before = [] ∧ after = [] ∧ t.kind = .number ∧ t.lexeme = digits
  | .expr (.var name _) => before = [] ∧ after = [] ∧ t.kind = .identifier ∧ t.lexeme = name
  | .expr (.unary op operand _) =>
    (before = [] ∧ IsSign signs op t ∧ IsExpr after operand) ∨
      ∃ step, op = .after step ∧ IsExpr before operand ∧ IsSign stepSigns step t ∧ after = []
  | .expr (.binary op left right _) =>
    IsExpr before left ∧ IsSign (levels.flatten ++ [(.comma, .comma)]) op t ∧ IsExpr after right
  | .expr (.assign op target value _) =>
    IsExpr before target ∧ IsSign assignSigns op t ∧ IsExpr after value
  | .typeName type => before = [] ∧ after = [] ∧ t.kind = .intKeyword ∧ t.lexeme = type.name
  | .stmt s => before = [] ∧ DerivesStmt (t :: after) s
  | .block b => before = [] ∧ DerivesBlock (t :: after) b
  -- functions are read without parameters
  | .param _ => False
  | .function f => before = [] ∧ DerivesFunction (t :: after) f

/-- The node is made of a part of the tokens, and its position is that of the token it stands for. -/
def Anchored (ts : List Token) (n : Node) : Prop :=
  ∃ before t after, before ++ t :: after <:+: ts ∧ Node.MadeOf before t after n ∧ n.pos = t.pos

variable {ts us : List Token} {n : Node}

theorem Anchored.mono (h : Anchored ts n) (hts : ts <:+: us) : Anchored us n := by
  obtain ⟨before, t, after, hinfix, hmade, hpos⟩ := h
  exact ⟨before, t, after, hinfix.trans hts, hmade, hpos⟩

theorem Anchored.exists_mem (h : Anchored ts n) : ∃ t ∈ ts, t.pos = n.pos := by
  obtain ⟨before, t, after, hinfix, -, hpos⟩ := h
  exact ⟨t, hinfix.subset (List.mem_append_right before List.mem_cons_self), hpos.symm⟩

theorem forall_nodes_mono {ns : List Node} (h : ∀ n ∈ ns, Anchored ts n) (hts : ts <:+: us) :
    ∀ n ∈ ns, Anchored us n :=
  fun n hn => (h n hn).mono hts

theorem infix_between (o c : Token) (ts : List Token) : ts <:+: o :: (ts ++ [c]) :=
  ⟨[o], [c], rfl⟩

section

variable {before after : List Token} {t : Token} {ns ms : List Node}

/-- A node that is made of all of the tokens, and others that are made of parts of them. -/
theorem forall_anchored_cons (hmade : Node.MadeOf before t after n) (hpos : n.pos = t.pos)
    (h : ∀ m ∈ ns, Anchored (before ++ t :: after) m) :
    ∀ m ∈ n :: ns, Anchored (before ++ t :: after) m :=
  List.forall_mem_cons.2 ⟨⟨before, t, after, List.infix_rfl, hmade, hpos⟩, h⟩

/-- The nodes on both sides of an operator. -/
theorem forall_anchored_sides (h : ∀ n ∈ ns, Anchored before n) (h' : ∀ n ∈ ms, Anchored after n) :
    ∀ n ∈ ns ++ ms, Anchored (before ++ t :: after) n := by
  have hafter : after <:+: before ++ t :: after :=
    (List.suffix_cons t after).isInfix.trans (List.suffix_append before (t :: after)).isInfix
  exact List.forall_mem_append.2 ⟨forall_nodes_mono h (List.prefix_append before _).isInfix,
    forall_nodes_mono h' hafter⟩

end

theorem mem_flatten_levels {m : Nat} {p : Punctuator} {op : BinaryOp}
    (h : (p, op) ∈ levels.getD m []) : (p, op) ∈ levels.flatten := by
  rw [List.getD_eq_getElem?_getD] at h
  cases hm : levels[m]? with
  | none =>
    rw [hm] at h
    cases h
  | some level =>
    rw [hm] at h
    exact List.mem_flatten_of_mem (List.mem_of_getElem? hm) h

/-- The nodes of an expression stand in the tokens that it is derived from. -/
theorem Derives.anchored {level : Level} {e : Expr} (h : Derives level ts e) :
    ∀ n ∈ e.nodes, Anchored ts n := by
  induction h with
  | @number t ht | @name t ht =>
    refine List.forall_mem_singleton.2 ?_
    exact ⟨[], t, [], List.infix_rfl, ⟨rfl, rfl, ht, rfl⟩, rfl⟩
  -- parentheses make no node, nor does a plus sign
  | @group o c ts e _ _ _ ih => exact forall_nodes_mono ih (infix_between o c ts)
  | ofPrimary _ ih | ofStepped _ ih | ofUnary _ ih | ofTighter _ _ ih | ofTier _ ih
  | ofAssignment _ ih => exact ih
  | @plus t ts e _ _ ih => exact forall_nodes_mono ih (List.suffix_cons t ts).isInfix
  | @step t ts e p op h ht hop ih =>
    refine forall_anchored_cons (.inr ⟨op, rfl, ⟨_, h⟩, ⟨p, ht, hop⟩, rfl⟩) rfl ?_
    exact forall_nodes_mono ih (List.prefix_append ts [t]).isInfix
  | @sign t ts e p op ht hop h ih =>
    have hmade : Node.MadeOf [] t ts (.expr (.unary op e t.pos)) := .inl ⟨rfl, ⟨p, ht, hop⟩, ⟨_, h⟩⟩
    exact forall_anchored_cons hmade rfl (forall_nodes_mono ih (List.suffix_cons t ts).isInfix)
  | @chain m t ts us left right p op h ht hop h' ihl ihr =>
    have hlisted := List.mem_append_left [(.comma, .comma)] (mem_flatten_levels hop)
    exact forall_anchored_cons ⟨⟨_, h⟩, ⟨p, ht, hlisted⟩, ⟨_, h'⟩⟩ rfl (forall_anchored_sides ihl ihr)
  | comma h ht h' ihl ihr =>
    exact forall_anchored_cons ⟨⟨_, h⟩, ⟨.comma, ht, List.mem_concat_self⟩, ⟨_, h'⟩⟩ rfl
      (forall_anchored_sides ihl ihr)
  | @assign t ts us target value p op h ht hop h' ihl ihr =>
    exact forall_anchored_cons ⟨⟨_, h⟩, ⟨p, ht, hop⟩, ⟨_, h'⟩⟩ rfl (forall_anchored_sides ihl ihr)

theorem anchored_typeName {k : Token} (hk : k.kind = .intKeyword) :
    Anchored [k] (.typeName ⟨k.lexeme, k.pos⟩) :=
  ⟨[], k, [], List.infix_rfl, ⟨rfl, rfl, hk, rfl⟩, rfl⟩

/-- A statement stands where its first token stands. -/
theorem DerivesStmt.anchored_self {s : Stmt} (h : DerivesStmt ts s) : Anchored ts (.stmt s) := by
  have hself := h
  cases h with
  | returns hk h hs | declare hk hn h hs | expr h hs =>
    exact ⟨[], _, _, List.infix_rfl, ⟨rfl, hself⟩, rfl⟩
  | block h =>
    cases h with
    | intro ho h hc => exact ⟨[], _, _, List.infix_rfl, ⟨rfl, hself⟩, rfl⟩

theorem DerivesBlock.anchored_self {b : Block} (h : DerivesBlock ts b) : Anchored ts (.block b) := by
  have hself := h
  cases h with
  | intro ho h hc => exact ⟨[], _, _, List.infix_rfl, ⟨rfl, hself⟩, rfl⟩

theorem DerivesInitial.anchored {init : Option Expr} (h : DerivesInitial ts init) :
    ∀ n ∈ (init.map Expr.nodes).getD [], Anchored ts n := by
  cases h with
  | absent => exact fun _ hn => nomatch hn
  | @given a ts e ha h => exact forall_nodes_mono h.anchored (List.suffix_cons a ts).isInfix

mutual

theorem DerivesStmt.anchored : ∀ {ts : List Token} {s : Stmt}, DerivesStmt ts s →
    ∀ n ∈ s.nodes, Anchored ts n
  | _, _, @DerivesStmt.returns k s ts _ hk h hs =>
    List.forall_mem_cons.2 ⟨(DerivesStmt.returns hk h hs).anchored_self,
      forall_nodes_mono h.anchored (infix_between k s ts)⟩
  | _, _, @DerivesStmt.expr t s ts _ h hs =>
    List.forall_mem_cons.2 ⟨(DerivesStmt.expr h hs).anchored_self,
      forall_nodes_mono h.anchored (List.prefix_append (t :: ts) [s]).isInfix⟩
  | _, _, @DerivesStmt.declare k n s _ _ hk hn h hs => by
    refine List.forall_mem_cons.2 ⟨(DerivesStmt.declare hk hn h hs).anchored_self, ?_⟩
    refine List.forall_mem_cons.2 ⟨(anchored_typeName hk).mono (List.prefix_append [k] _).isInfix, ?_⟩
    exact forall_nodes_mono h.anchored ⟨[k, n], [s], rfl⟩
  | _, _, .block h =>
    List.forall_mem_cons.2 ⟨(DerivesStmt.block h).anchored_self, h.anchored⟩

theorem DerivesBlock.anchored : ∀ {ts : List Token} {b : Block}, DerivesBlock ts b →
    ∀ n ∈ b.nodes, Anchored ts n
  | _, _, @DerivesBlock.intro o c ts _ ho h hc =>
    List.forall_mem_cons.2 ⟨(DerivesBlock.intro ho h hc).anchored_self,
      forall_nodes_mono h.anchored (infix_between o c ts)⟩

theorem DerivesStmts.anchored : ∀ {ts : List Token} {body : List Stmt}, DerivesStmts ts body →
    ∀ n ∈ Stmt.nodesAll body, Anchored ts n
  | _, _, .nil => fun _ hn => nomatch hn
  | _, _, @DerivesStmts.cons ts us _ _ h h' =>
    List.forall_mem_append.2 ⟨forall_nodes_mono h.anchored (List.prefix_append ts us).isInfix,
      forall_nodes_mono h'.anchored (List.suffix_append ts us).isInfix⟩

end

theorem DerivesFunction.anchored {f : Function} (h : DerivesFunction ts f) :
    ∀ n ∈ f.nodes, Anchored ts n := by
  have hself := h
  cases h with
  | @intro k n o c ts b hk hn ho hc h =>
    refine List.forall_mem_cons.2 ⟨⟨[], k, _, List.infix_rfl, ⟨rfl, hself⟩, rfl⟩, ?_⟩
    refine List.forall_mem_cons.2 ⟨(anchored_typeName hk).mono (List.prefix_append [k] _).isInfix, ?_⟩
    exact forall_nodes_mono h.anchored (List.suffix_append [k, n, o, c] ts).isInfix

/-- Every node of a unit stands in the tokens that the unit is derived from. -/
theorem DerivesUnit.anchored {fs : List Function} (h : DerivesUnit ts fs) :
    ∀ n ∈ fs.flatMap Function.nodes, Anchored ts n := by
  induction h with
  | nil => exact fun _ hn => nomatch hn
  | @cons ts us f fs h _ ih =>
    exact List.forall_mem_append.2 ⟨forall_nodes_mono h.anchored (List.prefix_append ts us).isInfix,
      forall_nodes_mono ih (List.suffix_append ts us).isInfix⟩

end Grammar

end SmallC
