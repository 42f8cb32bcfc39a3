import SmallC.Problem
import SmallC.Token

/-!
# Reading a token stream

A reader stands before a token of the stream, which it can look at. Invalid tokens are never looked
at: they are remarked on and passed over as soon as the reader gets to them. After a remark the reader
is quiet: mistakes that it notices then are kept to itself until a recovery starts. The remarks are
kept in order, the silenced ones and the recoveries among them.
-/
namespace SmallC.Grammar

/-- What a mistake is the lack of. -/
inductive Expectation where
  | typeName
  | functionName
  | parameterOpening
  | parameterClosing
  | blockOpening
  | blockClosing
  | returnEnd
  | variableName
  | declarationEnd
  | expressionEnd
  | groupClosing
  | expression
  deriving DecidableEq

def Expectation.message : Expectation → String
  | .typeName => "expected type name"
  | .functionName => "expected function name"
  | .parameterOpening => "expected '(' after function name"
  | .parameterClosing => "expected ')' after function parameters"
  | .blockOpening => "expected '\x7b' before block"
  | .blockClosing => "expected '\x7d' after block"
  | .returnEnd => "expected ';' after return value"
  | .variableName => "expected variable name"
  | .declarationEnd => "expected ';' after variable declaration"
  | .expressionEnd => "expected ';' after expression"
  | .groupClosing => "expected ')' after expression"
  | .expression => "expected expression"

inductive Remark where
  | lexical (message : String) (pos : Position)
  | mistake (wanted : Expectation) (pos : Position) (silenced : Bool)
  | recovery
  deriving DecidableEq

namespace Remark

/-- The problem that a remark reports. -/
def problem? : Remark → Option Problem
  | .lexical message pos => some (.lexical message pos)
  | .mistake wanted pos false => some (.syntactic wanted.message pos)
  | .mistake _ _ true => none
  | .recovery => none

def isFault : Remark → Bool
  | .recovery => false
  | _ => true

end Remark

structure Reader where
  /-- The tokens that are not consumed yet; the first one is never invalid. -/
  rest : List Token
  /-- Where the end of the stream stands. -/
  ending : Position
  /-- Kind of the token consumed last. -/
  last : Kind := .endOfFile
  /-- Tokens asked of the stream so far, the lookahead and the invalid ones among them. -/
  pulled : Nat := 0
  quiet : Bool := false
  remarks : List Remark := []

namespace Reader

/-- Pulls the lookahead, passing over the invalid tokens in front of it. -/
def settle (r : Reader) : Reader :=
  let bad := r.rest.takeWhile (·.kind == .invalid)
  { r with
    rest := r.rest.dropWhile (·.kind == .invalid)
    pulled := r.pulled + bad.length + 1
    quiet := r.quiet || !bad.isEmpty
    remarks := r.remarks ++ bad.map fun t => .lexical t.lexeme t.pos }

def start (s : TokenStream) : Reader :=
  settle { rest := s.tokens, ending := s.ending }

/-- The token that the reader stands before. -/
def lookahead (r : Reader) : Token :=
  r.rest.headD (.endOfFile r.ending)

def kind (r : Reader) : Kind :=
  r.lookahead.kind

def pos (r : Reader) : Position :=
  r.lookahead.pos

def atEnd (r : Reader) : Bool :=
  r.kind == .endOfFile

/-- Tokens left, which every consumption makes fewer. -/
def remaining (r : Reader) : Nat :=
  r.rest.length

/-- Consumes the lookahead. Past the end of the stream there is only more of the end to pull. -/
def advance (r : Reader) : Reader :=
  settle { r with rest := r.rest.tail, last := r.kind }

/-- Notes that something is lacking before the lookahead. -/
def note (r : Reader) (wanted : Expectation) : Reader :=
  { r with quiet := true, remarks := r.remarks ++ [.mistake wanted r.pos r.quiet] }

/-- From here on mistakes are reported again. -/
def beginRecovery (r : Reader) : Reader :=
  { r with quiet := false, remarks := r.remarks ++ [.recovery] }

/-- The lookahead read as an operator. -/
def operator? {α : Type} (r : Reader) (table : Punctuator → Option α) : Option α :=
  match r.rest with
  | [] => none
  | t :: _ =>
    match t.kind with
    | .punct p => table p
    | _ => none

theorem settle_remaining (r : Reader) : r.settle.remaining ≤ r.remaining :=
  (List.dropWhile_sublist _).length_le

theorem advance_lt {r : Reader} (h : r.rest ≠ []) : r.advance.remaining + 1 ≤ r.remaining := by
  have left := List.length_pos_iff.2 h
  have settled := settle_remaining { r with rest := r.rest.tail, last := r.kind }
  simp only [remaining, List.length_tail] at settled
  unfold advance remaining
  omega

theorem rest_ne_nil_of_cons {r : Reader} {t : Token} {ts : List Token} (h : r.rest = t :: ts) :
    r.rest ≠ [] := by
  simp [h]

theorem rest_ne_nil_of_atEnd {r : Reader} (h : ¬ r.atEnd = true) : r.rest ≠ [] := by
  intro he
  simp [atEnd, kind, lookahead, he, Token.endOfFile] at h

theorem rest_ne_nil_of_operator {α : Type} {r : Reader} {table : Punctuator → Option α} {a : α}
    (h : r.operator? table = some a) : r.rest ≠ [] := by
  intro he
  simp [operator?, he] at h

end Reader

/-- What a reading function hands on: a value, or nothing once a mistake has been noted, and the
reader behind it. A value stands for at least `n` consumed tokens. -/
structure Outcome (n : Nat) (r : Reader) (α : Type) where
  value : Option α
  next : Reader
  le : next.remaining ≤ r.remaining
  lt : value.isSome = true → next.remaining + n ≤ r.remaining

namespace Outcome

variable {α β : Type} {m n k : Nat} {r t : Reader}

/-- A value without consuming anything. -/
def done (r : Reader) (a : α) : Outcome 0 r α :=
  ⟨some a, r, Nat.le_refl _, fun _ => Nat.le_refl _⟩

/-- The value that the lookahead stands for. -/
def consume (r : Reader) (h : r.rest ≠ []) (a : α) : Outcome 1 r α :=
  ⟨some a, r.advance, Nat.le_of_succ_le (Reader.advance_lt h), fun _ => Reader.advance_lt h⟩

/-- A mistake at the lookahead. -/
def fail (r : Reader) (wanted : Expectation) : Outcome n r α :=
  ⟨none, r.note wanted, Nat.le_refl _, fun h => nomatch h⟩

def map (f : α → β) (o : Outcome n r α) : Outcome n r β :=
  ⟨o.value.map f, o.next, o.le, fun h => o.lt (by simpa using h)⟩

/-- The same outcome seen from a reader that has more left. -/
def since (h : t.remaining + m ≤ r.remaining) (o : Outcome n t α) : Outcome m r α :=
  ⟨o.value, o.next, by have := o.le; omega, fun _ => by have := o.le; omega⟩

/-- Goes on with a value if there is one. -/
def andThen (o : Outcome m r α)
    (f : α → (t : Reader) → t.remaining + m ≤ r.remaining → Outcome n t β) : Outcome m r β :=
  match o with
  | ⟨some a, t, _, lt⟩ => since (lt rfl) (f a t (lt rfl))
  | ⟨none, t, le, _⟩ => ⟨none, t, le, fun h => nomatch h⟩

end Outcome

/-- Consumes a token of the wanted kind. -/
def Reader.expect (r : Reader) (kind : Kind) (wanted : Expectation) : Outcome 1 r Token :=
  match h : r.rest with
  | [] => .fail r wanted
  | t :: _ => if t.kind = kind then .consume r (rest_ne_nil_of_cons h) t else .fail r wanted

end SmallC.Grammar
