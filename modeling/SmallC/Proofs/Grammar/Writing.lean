import SmallC.Proofs.Expansion.Spelling
import SmallC.Proofs.Grammar.Acceptance

/-!
# Writing trees down

A tree is written as the texts of its tokens. Operands stand in parentheses, and so do initial values and both
sides of an assignment, so that no operator can be taken for part of another operation. The grammar derives
the tree again from any tokens that are written so, up to positions.
-/
namespace SmallC

namespace Text

/-- The text is a word that is no keyword. -/
def isName (s : String) : Bool :=
  match s.toList with
  | [] => false
  | c :: cs => isWordStart c && cs.all isWordPart && s != "int" && s != "return"

/-- The text is one decimal digit or more. -/
def isNumber (s : String) : Bool :=
  !s.toList.isEmpty && s.toList.all Char.isDigit

def parenthesized (ws : List String) : List String :=
  "(" :: (ws ++ [")"])

end Text

open Text (parenthesized)

namespace Expr

/-- Names and numbers are spelled like such. -/
def isWritable : Expr → Bool
  | number digits _ => Text.isNumber digits
  | var name _ => Text.isName name
  | unary _ operand _ => operand.isWritable
  | binary _ left right _ => left.isWritable && right.isWritable
  | assign _ target value _ => target.isWritable && value.isWritable

/-- The tokens of an expression, every operand in parentheses. -/
def write : Expr → List String
  | number digits _ => [digits]
  | var name _ => [name]
  | unary op operand _ =>
    if op.isAfter then parenthesized operand.write ++ [op.spelling]
    else op.spelling :: parenthesized operand.write
  | binary op left right _ => parenthesized left.write ++ op.spelling :: parenthesized right.write
  | assign op target value _ => parenthesized target.write ++ op.spelling :: parenthesized value.write

def writeInitial : Option Expr → List String
  | none => []
  | some value => "=" :: parenthesized value.write

end Expr

namespace Stmt

mutual

/-- Names and numbers are spelled like such, and every variable is an `int`. -/
def isWritable : Stmt → Bool
  | block body _ => areWritable body
  | returns value _ => value.isWritable
  | expr value _ => value.isWritable
  | declare type name init _ => type.name == "int" && Text.isName name && init.all Expr.isWritable

def areWritable : List Stmt → Bool
  | [] => true
  | s :: more => s.isWritable && areWritable more

end

mutual

/-- The tokens of a statement. -/
def write : Stmt → List String
  | block body _ => "\x7b" :: (writeAll body ++ ["\x7d"])
  | returns value _ => "return" :: (value.write ++ [";"])
  | expr value _ => value.write ++ [";"]
  | declare type name init _ => type.name :: name :: (Expr.writeInitial init ++ [";"])

def writeAll : List Stmt → List String
  | [] => []
  | s :: more => s.write ++ writeAll more

end

end Stmt

namespace Function

def isWritable (f : Function) : Bool :=
  f.returnType.name == "int" && f.params.isEmpty && Text.isName f.name && Stmt.areWritable f.body.body

def write (f : Function) : List String :=
  f.returnType.name :: f.name :: "(" :: ")" :: "\x7b" :: (Stmt.writeAll f.body.body ++ ["\x7d"])

end Function

namespace TranslationUnit

def isWritable (u : TranslationUnit) : Bool :=
  u.functions.all Function.isWritable

def write (u : TranslationUnit) : List String :=
  u.functions.flatMap Function.write

/-- The tokens of a unit with a space between any two. -/
def text (u : TranslationUnit) : String :=
  " ".intercalate u.write

end TranslationUnit

open Scan (Spelled)

theorem Text.spelled_name {s : String} (h : isName s = true) : Spelled s .identifier := by
  unfold isName at h
  split at h
  · exact nomatch h
  · next c cs hs =>
    simp only [Bool.and_eq_true, List.all_eq_true, bne_iff_ne] at h
    obtain ⟨⟨⟨hc, hcs⟩, hint⟩, hreturn⟩ := h
    have hword := Spelled.word hc hcs
    have hkind : Kind.ofWord s = .identifier := by simp [Kind.ofWord, hint, hreturn]
    rwa [← hs, String.ofList_toList, hkind] at hword

theorem Text.spelled_number {s : String} (h : isNumber s = true) : Spelled s .number := by
  unfold isNumber at h
  rw [Bool.and_eq_true, List.all_eq_true] at h
  obtain ⟨hsome, hdigits⟩ := h
  cases hs : s.toList with
  | nil => simp [hs] at hsome
  | cons c cs =>
    rw [hs] at hdigits
    obtain ⟨hc, hcs⟩ := List.forall_mem_cons.1 hdigits
    have hnumber := Spelled.number hc hcs
    rwa [← hs, String.ofList_toList] at hnumber

theorem Text.spelled_int : Spelled "int" .intKeyword := by
  have hword : Spelled (String.ofList ['i', 'n', 't']) _ := .word rfl (List.all_eq_true.1 rfl)
  exact hword

theorem Text.spelled_return : Spelled "return" .returnKeyword := by
  have hword : Spelled (String.ofList ['r', 'e', 't', 'u', 'r', 'n']) _ := .word rfl (List.all_eq_true.1 rfl)
  exact hword

namespace WrittenAs

variable {ts : List Token} {w : String} {ws vs : List String} {k : Kind} {p : Punctuator}

theorem nil (h : WrittenAs ts []) : ts = [] :=
  List.map_eq_nil_iff.1 h.lexemes

theorem cons (h : WrittenAs ts (w :: ws)) (hw : Spelled w k) :
    ∃ t us, ts = t :: us ∧ t.lexeme = w ∧ t.kind = k ∧ WrittenAs us ws := by
  obtain ⟨t, us, rfl, rfl, hus⟩ := List.map_eq_cons_iff.1 h.lexemes
  obtain ⟨ht, hspelled⟩ := List.forall_mem_cons.1 h.spelled
  exact ⟨t, us, rfl, rfl, ht.kind_unique hw, hus, hspelled⟩

theorem append (h : WrittenAs ts (ws ++ vs)) :
    ∃ us us', ts = us ++ us' ∧ WrittenAs us ws ∧ WrittenAs us' vs := by
  obtain ⟨us, us', rfl, hws, hvs⟩ := List.map_eq_append_iff.1 h.lexemes
  obtain ⟨hus, hus'⟩ := List.forall_mem_append.1 h.spelled
  exact ⟨us, us', rfl, ⟨hws, hus⟩, hvs, hus'⟩

/-- A sign in front. -/
theorem sign (h : WrittenAs ts (p.spelling :: ws)) (hp : p ≠ .hash) :
    ∃ t us, ts = t :: us ∧ t.kind = .punct p ∧ WrittenAs us ws := by
  obtain ⟨t, us, hts, -, hk, hus⟩ := h.cons (.sign hp)
  exact ⟨t, us, hts, hk, hus⟩

/-- A sign at the end. -/
theorem appendSign (h : WrittenAs ts (ws ++ [p.spelling])) (hp : p ≠ .hash) :
    ∃ us t, ts = us ++ [t] ∧ t.kind = .punct p ∧ WrittenAs us ws := by
  obtain ⟨us, us', rfl, hus, hlast⟩ := h.append
  obtain ⟨t, vs, rfl, hk, hvs⟩ := hlast.sign hp
  exact ⟨us, t, by rw [hvs.nil], hk, hus⟩

end WrittenAs

namespace Grammar

/-- The operator stands in the table beside a sign with its spelling. -/
theorem exists_sign_of_listed {α : Type} {table : List (Punctuator × α)} {op : α} {spelling : String}
    (h : ∃ x ∈ table, x.2 = op ∧ x.1 ≠ .hash ∧ x.1.spelling = spelling) :
    ∃ p, (p, op) ∈ table ∧ p ≠ .hash ∧ p.spelling = spelling := by
  obtain ⟨⟨p, _⟩, hx, rfl, hp, hspelling⟩ := h
  exact ⟨p, hx, hp, hspelling⟩

theorem exists_binary_sign {op : BinaryOp} (h : op ≠ .comma) :
    ∃ n < levels.length, ∃ p, (p, op) ∈ levels.getD n [] ∧ p ≠ .hash ∧ p.spelling = op.spelling := by
  have hlisted : ∃ i : Fin levels.length, ∃ x ∈ levels.get i,
      x.2 = op ∧ x.1 ≠ .hash ∧ x.1.spelling = op.spelling := by
    rcases op with _ | op | op | _ | _
    · exact absurd rfl h
    · cases op <;> decide
    · cases op <;> decide
    · decide
    · decide
  obtain ⟨i, hi⟩ := hlisted
  refine ⟨i, i.isLt, ?_⟩
  rw [List.getD_eq_getElem?_getD, List.getElem?_eq_getElem i.isLt]
  exact exists_sign_of_listed hi

theorem exists_assign_sign (op : AssignOp) :
    ∃ p, (p, op) ∈ assignSigns ∧ p ≠ .hash ∧ p.spelling = op.spelling := by
  apply exists_sign_of_listed
  cases op with
  | plain => decide
  | compound op => cases op <;> decide

theorem exists_sign {op : UnaryOp} (h : op.isAfter = false) :
    ∃ p, (p, op) ∈ signs ∧ p ≠ .hash ∧ p.spelling = op.spelling := by
  apply exists_sign_of_listed
  cases op with
  | neg | bitNot | logNot => decide
  | before op => cases op <;> decide
  | after op => exact nomatch h

theorem exists_step_sign (op : StepOp) :
    ∃ p, (p, op) ∈ stepSigns ∧ p ≠ .hash ∧ p.spelling = op.spelling := by
  apply exists_sign_of_listed
  cases op <;> decide

/-- A tier holds whatever a tighter one does. -/
theorem Derives.loosen {n m : Nat} {ts : List Token} {e : Expr} (h : Derives (.tier n) ts e)
    (hn : n ≤ levels.length) (hm : m ≤ n) : Derives (.tier m) ts e := by
  induction hm with
  | refl => exact h
  | step _ ih => exact ih (.ofTighter hn h) (Nat.le_of_succ_le hn)

theorem Derives.toUnary {ts : List Token} {e : Expr} (h : Derives .primary ts e) : Derives .unary ts e :=
  .ofStepped (.ofPrimary h)

theorem Derives.toTier {ts : List Token} {e : Expr} (h : Derives .unary ts e) {n : Nat}
    (hn : n ≤ levels.length) : Derives (.tier n) ts e :=
  (Derives.ofUnary h).loosen (Nat.le_refl _) hn

theorem Derives.toAssignment {ts : List Token} {e : Expr} (h : Derives .unary ts e) :
    Derives .assignment ts e :=
  .ofTier (h.toTier (Nat.zero_le _))

/-- Whatever tokens the texts are of, they are the expression, up to positions. -/
def Rederives (level : Level) (ws : List String) (e : Expr) : Prop :=
  ∀ ts, WrittenAs ts ws → ∃ e', Derives level ts e' ∧ e'.erase = e.erase

variable {e left right : Expr} {ws vs : List String} {level level' : Level}

theorem Rederives.imp (h : Rederives level ws e)
    (hlevel : ∀ {ts e}, Derives level ts e → Derives level' ts e) : Rederives level' ws e := by
  intro ts hts
  obtain ⟨e', hd, he⟩ := h ts hts
  exact ⟨e', hlevel hd, he⟩

/-- An expression in parentheses can stand anywhere. -/
theorem Rederives.group (h : Rederives .expression ws e) : Rederives .primary (parenthesized ws) e := by
  intro ts hts
  obtain ⟨o, us, rfl, ho, hus⟩ := hts.sign (p := .openParen) (by decide)
  obtain ⟨vs, c, rfl, hc, hvs⟩ := hus.appendSign (p := .closeParen) (by decide)
  obtain ⟨e', hd, he⟩ := h vs hvs
  exact ⟨e', .group ho hd hc, he⟩

theorem rederives_number {digits : String} (h : Text.isNumber digits = true) (pos : Position) :
    Rederives .primary [digits] (.number digits pos) := by
  intro ts hts
  obtain ⟨t, us, rfl, rfl, hk, hus⟩ := hts.cons (Text.spelled_number h)
  rw [hus.nil]
  exact ⟨_, .number hk, rfl⟩

theorem rederives_var {name : String} (h : Text.isName name = true) (pos : Position) :
    Rederives .primary [name] (.var name pos) := by
  intro ts hts
  obtain ⟨t, us, rfl, rfl, hk, hus⟩ := hts.cons (Text.spelled_name h)
  rw [hus.nil]
  exact ⟨_, .name hk, rfl⟩

theorem Rederives.sign {op : UnaryOp} (h : Rederives .unary ws e) (hop : op.isAfter = false)
    (pos : Position) : Rederives .unary (op.spelling :: ws) (.unary op e pos) := by
  intro ts hts
  obtain ⟨p, hsign, hp, hspelling⟩ := exists_sign hop
  rw [← hspelling] at hts
  obtain ⟨t, us, rfl, ht, hus⟩ := hts.sign hp
  obtain ⟨e', hd, he⟩ := h us hus
  exact ⟨_, .sign ht hsign hd, by rw [Expr.erase, he, Expr.erase]⟩

theorem Rederives.step (h : Rederives .primary ws e) (op : StepOp) (pos : Position) :
    Rederives .unary (ws ++ [op.spelling]) (.unary (.after op) e pos) := by
  intro ts hts
  obtain ⟨p, hsign, hp, hspelling⟩ := exists_step_sign op
  rw [← hspelling] at hts
  obtain ⟨us, t, rfl, ht, hus⟩ := hts.appendSign hp
  obtain ⟨e', hd, he⟩ := h us hus
  exact ⟨_, .ofStepped (.step (.ofPrimary hd) ht hsign), by rw [Expr.erase, he, Expr.erase]⟩

theorem Rederives.binary (hl : Rederives .primary ws left) (hr : Rederives .primary vs right)
    (op : BinaryOp) (pos : Position) :
    Rederives .expression (ws ++ op.spelling :: vs) (.binary op left right pos) := by
  intro ts hts
  obtain ⟨us, more, rfl, hus, hmore⟩ := hts.append
  obtain ⟨left', hdl, hel⟩ := hl us hus
  by_cases hop : op = .comma
  · subst hop
    obtain ⟨t, us', rfl, ht, hus'⟩ := hmore.sign (p := .comma) (by decide)
    obtain ⟨right', hdr, her⟩ := hr us' hus'
    refine ⟨_, .comma (.ofAssignment hdl.toUnary.toAssignment) ht hdr.toUnary.toAssignment, ?_⟩
    rw [Expr.erase, hel, her, Expr.erase]
  · obtain ⟨n, hn, p, hsign, hp, hspelling⟩ := exists_binary_sign hop
    rw [← hspelling] at hmore
    obtain ⟨t, us', rfl, ht, hus'⟩ := hmore.sign hp
    obtain ⟨right', hdr, her⟩ := hr us' hus'
    have hchain := Derives.chain (hdl.toUnary.toTier (Nat.le_of_lt hn)) ht hsign (hdr.toUnary.toTier hn)
    refine ⟨_, .ofAssignment (.ofTier (hchain.loosen (Nat.le_of_lt hn) (Nat.zero_le _))), ?_⟩
    rw [Expr.erase, hel, her, Expr.erase]

theorem Rederives.assign (hl : Rederives .primary ws left) (hr : Rederives .primary vs right)
    (op : AssignOp) (pos : Position) :
    Rederives .expression (ws ++ op.spelling :: vs) (.assign op left right pos) := by
  intro ts hts
  obtain ⟨us, more, rfl, hus, hmore⟩ := hts.append
  obtain ⟨left', hdl, hel⟩ := hl us hus
  obtain ⟨p, hsign, hp, hspelling⟩ := exists_assign_sign op
  rw [← hspelling] at hmore
  obtain ⟨t, us', rfl, ht, hus'⟩ := hmore.sign hp
  obtain ⟨right', hdr, her⟩ := hr us' hus'
  have htarget := hdl.toUnary.toTier (Nat.zero_le _)
  refine ⟨_, .ofAssignment (.assign htarget ht hsign hdr.toUnary.toAssignment), ?_⟩
  rw [Expr.erase, hel, her, Expr.erase]

/-- Every operand is read back by itself, so the operator around it is as well. -/
theorem rederives_expr (e : Expr) (h : e.isWritable = true) : Rederives .expression e.write e := by
  have hup : ∀ {ts e}, Derives .unary ts e → Derives .expression ts e := fun hd =>
    .ofAssignment hd.toAssignment
  -- operands come back as whole expressions; their parentheses make them primaries again
  induction e with
  | number digits pos => exact (rederives_number h pos).imp fun hd => hup hd.toUnary
  | var name pos => exact (rederives_var h pos).imp fun hd => hup hd.toUnary
  | unary op operand pos ih =>
    have hgroup := (ih h).group
    rw [Expr.write]
    cases op with
    | after op => exact (hgroup.step op pos).imp hup
    | neg | bitNot | logNot | before op => exact ((hgroup.imp Derives.toUnary).sign rfl pos).imp hup
  | binary op left right pos ihl ihr =>
    obtain ⟨hleft, hright⟩ := (Bool.and_eq_true _ _).mp h
    exact (ihl hleft).group.binary (ihr hright).group op pos
  | assign op target value pos iht ihv =>
    obtain ⟨htarget, hvalue⟩ := (Bool.and_eq_true _ _).mp h
    exact (iht htarget).group.assign (ihv hvalue).group op pos

variable {ts : List Token} {body : List Stmt}

theorem rederives_initial {init : Option Expr} (h : init.all Expr.isWritable = true)
    (hts : WrittenAs ts (Expr.writeInitial init)) :
    ∃ init', DerivesInitial ts init' ∧ init'.map Expr.erase = init.map Expr.erase := by
  cases init with
  | none =>
    rw [hts.nil]
    exact ⟨none, .absent, rfl⟩
  | some value =>
    obtain ⟨t, us, rfl, ht, hus⟩ := hts.sign (p := .assign) (by decide)
    obtain ⟨e', hd, he⟩ := (rederives_expr value h).group us hus
    exact ⟨some e', .given ht hd.toUnary.toAssignment, congrArg some he⟩

theorem rederives_block
    (hbody : ∀ {ts}, WrittenAs ts (Stmt.writeAll body) →
      ∃ body', DerivesStmts ts body' ∧ Stmt.eraseAll body' = Stmt.eraseAll body)
    (hts : WrittenAs ts ("\x7b" :: (Stmt.writeAll body ++ ["\x7d"]))) :
    ∃ b, DerivesBlock ts b ∧ Stmt.eraseAll b.body = Stmt.eraseAll body := by
  obtain ⟨o, us, rfl, ho, hus⟩ := hts.sign (p := .openBrace) (by decide)
  obtain ⟨vs, c, rfl, hc, hvs⟩ := hus.appendSign (p := .closeBrace) (by decide)
  obtain ⟨body', hd, he⟩ := hbody hvs
  exact ⟨⟨body', o.pos⟩, .intro ho hd hc, he⟩

mutual

theorem rederives_stmt : ∀ (s : Stmt), s.isWritable = true → ∀ {ts}, WrittenAs ts s.write →
    ∃ s', DerivesStmt ts s' ∧ s'.erase = s.erase
  | .block body pos, h, ts, hts => by
    obtain ⟨b, hd, he⟩ := rederives_block (rederives_stmts body h) hts
    exact ⟨_, .block hd, congrArg (Stmt.block · .origin) he⟩
  | .returns value pos, h, ts, hts => by
    obtain ⟨k, us, rfl, -, hk, hus⟩ := hts.cons Text.spelled_return
    obtain ⟨vs, s, rfl, hs, hvs⟩ := hus.appendSign (p := .semicolon) (by decide)
    obtain ⟨e', hd, he⟩ := rederives_expr value h vs hvs
    exact ⟨_, .returns hk hd hs, congrArg (Stmt.returns · .origin) he⟩
  | .expr value pos, h, ts, hts => by
    obtain ⟨vs, s, rfl, hs, hvs⟩ := hts.appendSign (p := .semicolon) (by decide)
    obtain ⟨e', hd, he⟩ := rederives_expr value h vs hvs
    obtain ⟨t, us, rfl, -⟩ := hd.exists_head
    exact ⟨_, .expr hd hs, congrArg (Stmt.expr · .origin) he⟩
  | .declare type name init pos, h, ts, hts => by
    obtain ⟨hfront, hinit⟩ := (Bool.and_eq_true _ _).mp h
    obtain ⟨htype, hname⟩ := (Bool.and_eq_true _ _).mp hfront
    have hint : Spelled type.name .intKeyword := beq_iff_eq.1 htype ▸ Text.spelled_int
    obtain ⟨k, us, rfl, hlexeme, hk, hus⟩ := hts.cons hint
    obtain ⟨n, us, rfl, rfl, hn, hus⟩ := hus.cons (Text.spelled_name hname)
    obtain ⟨vs, s, rfl, hs, hvs⟩ := hus.appendSign (p := .semicolon) (by decide)
    obtain ⟨init', hd, he⟩ := rederives_initial hinit hvs
    refine ⟨_, .declare hk hn hd hs, ?_⟩
    rw [Stmt.erase, he, TypeName.erase, hlexeme]
    rfl

theorem rederives_stmts : ∀ (body : List Stmt), Stmt.areWritable body = true →
    ∀ {ts}, WrittenAs ts (Stmt.writeAll body) →
    ∃ body', DerivesStmts ts body' ∧ Stmt.eraseAll body' = Stmt.eraseAll body
  | [], _, ts, hts => by
    rw [hts.nil]
    exact ⟨[], .nil, rfl⟩
  | s :: more, h, ts, hts => by
    obtain ⟨hs, hmore⟩ := (Bool.and_eq_true _ _).mp h
    obtain ⟨us, vs, rfl, hus, hvs⟩ := hts.append
    obtain ⟨s', hds, hes⟩ := rederives_stmt s hs hus
    obtain ⟨more', hdm, hem⟩ := rederives_stmts more hmore hvs
    refine ⟨s' :: more', .cons hds hdm, ?_⟩
    rw [Stmt.eraseAll, hes, hem, Stmt.eraseAll]

end

theorem rederives_function {f : Function} (h : f.isWritable = true) (hts : WrittenAs ts f.write) :
    ∃ f', DerivesFunction ts f' ∧ f'.erase = f.erase := by
  simp only [Function.isWritable, Bool.and_eq_true, beq_iff_eq, List.isEmpty_iff] at h
  obtain ⟨⟨⟨htype, hparams⟩, hname⟩, hbody⟩ := h
  have hint : Spelled f.returnType.name .intKeyword := htype ▸ Text.spelled_int
  obtain ⟨k, us, rfl, hlexeme, hk, hus⟩ := hts.cons hint
  obtain ⟨n, us, rfl, hn, hkind, hus⟩ := hus.cons (Text.spelled_name hname)
  obtain ⟨o, us, rfl, ho, hus⟩ := hus.sign (p := .openParen) (by decide)
  obtain ⟨c, us, rfl, hc, hus⟩ := hus.sign (p := .closeParen) (by decide)
  obtain ⟨b, hd, he⟩ := rederives_block (rederives_stmts f.body.body hbody) hus
  refine ⟨_, .intro hk hkind ho hc hd, ?_⟩
  rw [Function.erase, Function.erase, he, TypeName.erase, hlexeme, hn, hparams]
  rfl

theorem rederives_functions {fs : List Function} (h : ∀ f ∈ fs, f.isWritable = true)
    (hts : WrittenAs ts (fs.flatMap Function.write)) :
    ∃ fs', DerivesUnit ts fs' ∧ fs'.map Function.erase = fs.map Function.erase := by
  induction fs generalizing ts with
  | nil =>
    rw [hts.nil]
    exact ⟨[], .nil, rfl⟩
  | cons f fs ih =>
    obtain ⟨hf, hfs⟩ := List.forall_mem_cons.1 h
    obtain ⟨us, vs, rfl, hus, hvs⟩ := hts.append
    obtain ⟨f', hd, he⟩ := rederives_function hf hus
    obtain ⟨fs', hds, hes⟩ := ih hfs hvs
    refine ⟨f' :: fs', .cons hd hds, ?_⟩
    rw [List.map_cons, he, hes, List.map_cons]

end Grammar

end SmallC
