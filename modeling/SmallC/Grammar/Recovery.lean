import SmallC.Grammar.Reader

/-!
# Recovery after a mistake

A broken statement is skipped up to a place where a statement can start or a block can end. A broken
function is skipped up to the next `int` outside braces. Either way at least one token is consumed,
so reading goes on.
-/
namespace SmallC.Grammar.Reader

/-- The lookahead can start a statement or end a block. -/
def atBoundary (r : Reader) : Bool :=
  r.kind == .intKeyword || r.kind == .returnKeyword || r.kind == .punct .closeBrace

/-- Skips to just past a semicolon, or to a boundary. -/
def synchronize (r : Reader) : Reader :=
  if h : r.atEnd then r
  else if r.last == .punct .semicolon || r.atBoundary then r
  else
    have := advance_lt (rest_ne_nil_of_atEnd h)
    r.advance.synchronize
termination_by r.remaining

/-- Skips a token if none was consumed since `start`. -/
def ensureProgress (r start : Reader) : Reader :=
  if r.remaining = start.remaining then r.advance else r

/-- Skips the rest of the statement that began at `start`. -/
def recover (r start : Reader) : Reader :=
  r.beginRecovery.synchronize.ensureProgress start

/-- Skips to an `int` outside braces, `depth` of which are open. -/
def skipDeclaration (depth : Nat) (r : Reader) : Reader :=
  if h : r.atEnd then r
  else if r.kind = .intKeyword ∧ depth = 0 then r
  else
    have := advance_lt (rest_ne_nil_of_atEnd h)
    let inner :=
      if r.kind = .punct .openBrace then depth + 1
      else if r.kind = .punct .closeBrace then depth - 1
      else depth
    r.advance.skipDeclaration inner
termination_by r.remaining

/-- Skips the rest of the function that began at `start`. -/
def recoverDeclaration (r start : Reader) : Reader :=
  (r.beginRecovery.ensureProgress start).skipDeclaration 0

theorem synchronize_le (r : Reader) : r.synchronize.remaining ≤ r.remaining := by
  fun_induction synchronize r with
  | case1 => exact Nat.le_refl _
  | case2 => exact Nat.le_refl _
  | case3 r _ _ less ih => omega

theorem skipDeclaration_le (depth : Nat) (r : Reader) :
    (r.skipDeclaration depth).remaining ≤ r.remaining := by
  fun_induction skipDeclaration depth r with
  | case1 => exact Nat.le_refl _
  | case2 => exact Nat.le_refl _
  | case3 depth r _ _ less inner ih => omega

theorem ensureProgress_lt {r start : Reader} (le : r.remaining ≤ start.remaining)
    (more : start.rest ≠ []) : (r.ensureProgress start).remaining + 1 ≤ start.remaining := by
  have pos : 0 < start.remaining := List.length_pos_iff.2 more
  unfold ensureProgress
  split
  · next same =>
    have left : r.rest ≠ [] := by
      apply List.length_pos_iff.1
      rw [← same] at pos
      exact pos
    have := advance_lt left
    omega
  · omega

theorem recover_lt {r start : Reader} (le : r.remaining ≤ start.remaining)
    (more : start.rest ≠ []) : (r.recover start).remaining + 1 ≤ start.remaining :=
  ensureProgress_lt (Nat.le_trans (synchronize_le _) le) more

theorem recoverDeclaration_lt {r start : Reader} (le : r.remaining ≤ start.remaining)
    (more : start.rest ≠ []) : (r.recoverDeclaration start).remaining + 1 ≤ start.remaining := by
  have progress : (r.beginRecovery.ensureProgress start).remaining + 1 ≤ start.remaining :=
    ensureProgress_lt le more
  have := skipDeclaration_le 0 (r.beginRecovery.ensureProgress start)
  unfold recoverDeclaration
  omega

end SmallC.Grammar.Reader
