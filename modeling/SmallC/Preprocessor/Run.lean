import SmallC.Preprocessor

/-!
# Running the preprocessor to the end

Every step but the last makes the unread text smaller in the following sense. Read the numbers of
unread characters from the outermost buffer to the innermost: a step either shrinks the last number,
or drops it, or shrinks it and appends one. So the list gets smaller in the lexicographic order, and
since no more buffers than the limit are ever suspended, that cannot go on for ever.
-/
namespace SmallC.Preprocessor

/-- Lists of numbers under a bound on their length. -/
structure Load where
  bound : Nat
  counts : List Nat

/-- `a` is smaller than `b` in the lexicographic order, and keeps within the bound. -/
def Load.Lighter (a b : Load) : Prop :=
  a.bound ≤ b.bound ∧ a.counts.length ≤ a.bound ∧ List.Lex (· < ·) a.counts b.counts

/-- Lists of bounded length are well founded under the lexicographic order. -/
theorem acc_lex (n : Nat) : ∀ l : List Nat,
    Acc (fun a b : List Nat => a.length ≤ n ∧ List.Lex (· < ·) a b) l := by
  induction n with
  | zero =>
    intro l
    refine ⟨l, fun a ⟨short, _⟩ => ?_⟩
    obtain rfl : a = [] := List.length_eq_zero_iff.1 (Nat.le_zero.1 short)
    exact ⟨[], fun b ⟨_, less⟩ => nomatch less⟩
  | succ n ih =>
    have cons : ∀ x : Nat, ∀ l : List Nat,
        Acc (fun a b : List Nat => a.length ≤ n + 1 ∧ List.Lex (· < ·) a b) (x :: l) := by
      intro x
      induction x using Nat.strongRecOn with
      | _ x smaller =>
        intro l
        induction ih l with
        | intro l _ inner =>
          refine ⟨x :: l, fun a ⟨short, less⟩ => ?_⟩
          cases less with
          | nil => exact ⟨[], fun b ⟨_, less⟩ => nomatch less⟩
          | cons rest => exact inner _ ⟨Nat.le_of_succ_le_succ short, rest⟩
          | rel head => exact smaller _ head _
    intro l
    cases l with
    | nil => exact ⟨[], fun b ⟨_, less⟩ => nomatch less⟩
    | cons x l => exact cons x l

theorem Load.lighter_wellFounded : WellFounded Load.Lighter := by
  refine ⟨fun b => ?_⟩
  suffices h : ∀ l : List Nat, ∀ k, k ≤ b.bound → Acc Load.Lighter ⟨k, l⟩ from
    h b.counts b.bound (Nat.le_refl _)
  intro l
  induction acc_lex b.bound l with
  | intro l _ ih =>
    intro k within
    refine ⟨_, fun a ⟨le, short, less⟩ => ?_⟩
    exact ih a.counts ⟨Nat.le_trans short (Nat.le_trans le within), less⟩ a.bound
      (Nat.le_trans le within)

instance : WellFoundedRelation Load where
  rel := Load.Lighter
  wf := Load.lighter_wellFounded

/-- The numbers of unread characters, outermost buffer first. -/
def counts (p : Preprocessor) : List Nat :=
  (p.suspended.map (·.rest.length)).reverse ++ [p.active.rest.length]

def unread (p : Preprocessor) : Load :=
  ⟨max p.maxDepth p.depth + 1, p.counts⟩

theorem counts_length (p : Preprocessor) : p.counts.length = p.depth + 1 := by
  simp [counts, depth]

/-- `q` has less to read than `p`. -/
def Closer (q p : Preprocessor) : Prop :=
  q.unread.Lighter p.unread

theorem lex_append_right {x y : Nat} (h : x < y) (l tail : List Nat) :
    List.Lex (· < ·) (l ++ x :: tail) (l ++ [y]) := by
  induction l with
  | nil => exact .rel h
  | cons a l ih => exact .cons ih

theorem lex_append_nil (l : List Nat) (x : Nat) : List.Lex (· < ·) l (l ++ [x]) := by
  induction l with
  | nil => exact .nil
  | cons a l ih => exact .cons ih

/-- Reading on in the same buffer. -/
theorem closer_of_shorter {p q : Preprocessor} (limit : q.maxDepth = p.maxDepth)
    (callers : q.suspended = p.suspended) (less : q.active.rest.length < p.active.rest.length) :
    q.Closer p := by
  refine ⟨?_, ?_, ?_⟩
  · simp [unread, depth, limit, callers]
  · simp only [unread, counts_length]
    omega
  · simp only [unread, counts, callers]
    exact lex_append_right less _ []

/-- Going on in a new buffer, after reading on in the one that is suspended. -/
theorem closer_of_enter {p q : Preprocessor} (limit : q.maxDepth = p.maxDepth)
    (caller : Frame) (callers : q.suspended = caller :: p.suspended)
    (less : caller.rest.length < p.active.rest.length) (room : p.depth < p.maxDepth) :
    q.Closer p := by
  have deeper : q.depth = p.depth + 1 := by simp [depth, callers]
  refine ⟨?_, ?_, ?_⟩
  · simp only [unread, limit, deeper]
    omega
  · simp only [unread, counts_length]
    omega
  · simp only [unread, counts, callers, List.map_cons, List.reverse_cons, List.append_assoc,
      List.singleton_append]
    exact lex_append_right less _ _

/-- Going back to a suspended buffer. -/
theorem closer_of_resume {p q : Preprocessor} (limit : q.maxDepth = p.maxDepth)
    (callers : p.suspended = q.active :: q.suspended) : q.Closer p := by
  have deeper : p.depth = q.depth + 1 := by simp [depth, callers]
  refine ⟨?_, ?_, ?_⟩
  · simp only [unread, limit, deeper]
    omega
  · simp only [unread, counts_length]
    omega
  · simp only [unread, counts, callers, List.map_cons, List.reverse_cons]
    exact lex_append_nil _ _

/-- A step that does not finish leads closer to the end. -/
def Step.Advances (p : Preprocessor) : Step → Prop
  | .token _ next => next.Closer p
  | .silent next => next.Closer p
  | .finish _ _ => True

/-- `q` has read on in the buffer that `p` reads. -/
structure ReadOn (q p : Preprocessor) : Prop where
  maxDepth : q.maxDepth = p.maxDepth
  suspended : q.suspended = p.suspended
  less : q.active.rest.length < p.active.rest.length

theorem ReadOn.closer {p q : Preprocessor} (h : q.ReadOn p) : q.Closer p :=
  closer_of_shorter h.maxDepth h.suspended h.less

theorem insertFile_advances {p q : Preprocessor} (h : q.ReadOn p) (path : String)
    (style : IncludeStyle) (pos : Position) : (q.insertFile path style pos).Advances p := by
  unfold insertFile
  split
  · exact h.closer
  · next room =>
    dsimp only
    split
    · exact closer_of_shorter h.maxDepth h.suspended h.less
    · refine closer_of_enter h.maxDepth q.active ?_ h.less ?_
      · simp [enter, h.suspended]
      · have same : q.depth = p.depth := by simp [depth, h.suspended]
        have := h.maxDepth
        omega

theorem obey_advances {p q : Preprocessor} (h : q.ReadOn p) (pos : Position) :
    (q.obey pos).Advances p := by
  have le := (Directive.read_leaves q.active.rest).length_le
  have less := h.less
  unfold obey
  dsimp only
  split
  · exact closer_of_shorter h.maxDepth h.suspended (Nat.lt_of_le_of_lt le less)
  · exact closer_of_shorter h.maxDepth h.suspended (Nat.lt_of_le_of_lt le less)
  · exact closer_of_shorter h.maxDepth h.suspended (Nat.lt_of_le_of_lt le less)
  · exact closer_of_shorter h.maxDepth h.suspended (Nat.lt_of_le_of_lt le less)
  · refine insertFile_advances ?_ _ _ _
    exact ⟨h.maxDepth, h.suspended, Nat.lt_of_le_of_lt le less⟩

theorem replace_advances {p q : Preprocessor} (h : q.ReadOn p) (word : Token) (d : Definition) :
    (q.replace word d).Advances p := by
  unfold replace
  split
  · exact h.closer
  · split
    · exact h.closer
    · next room =>
      refine closer_of_enter h.maxDepth q.active ?_ h.less ?_
      · simp [enter, h.suspended]
      · have same : q.depth = p.depth := by simp [depth, h.suspended]
        have := h.maxDepth
        omega

theorem deliver_advances {p q : Preprocessor} (h : q.ReadOn p) (first : Bool) (t : Token) :
    (q.deliver first t).Advances p := by
  unfold deliver
  split
  · split
    · exact obey_advances h _
    · exact h.closer
  · split
    · split
      · exact replace_advances h _ _
      · exact h.closer
    · exact h.closer

/-- A step that does not finish has less to read afterwards. -/
theorem step_advances (p : Preprocessor) : p.step.Advances p := by
  have le := Scan.gap_length p.active.rest
  unfold step
  dsimp only
  split
  · unfold leave
    split
    · next callers => exact closer_of_resume rfl callers
    · trivial
  · next c rest hi =>
    exact closer_of_shorter rfl rfl (Nat.lt_of_lt_of_le (Scan.item_invalid_length hi) le)
  · next kind lexeme rest hi =>
    refine deliver_advances ?_ _ _
    exact ⟨rfl, rfl, Nat.lt_of_lt_of_le (Scan.item_token_length hi) le⟩

/-- The step with the fact that it advances. -/
def checkedStep (p : Preprocessor) : { s : Step // s.Advances p } :=
  ⟨p.step, p.step_advances⟩

/-- The next token, which is the end of the file once nothing is left. -/
def next (p : Preprocessor) : Token × Preprocessor :=
  match p.checkedStep with
  | ⟨.token t q, _⟩ => (t, q)
  | ⟨.finish t q, _⟩ => (t, q)
  | ⟨.silent q, _⟩ => q.next
termination_by p.unread
decreasing_by assumption

/-- Every token up to the end of the file, and the state after it. -/
def run (p : Preprocessor) : TokenStream × Preprocessor :=
  match p.checkedStep with
  | ⟨.token t q, _⟩ =>
    let (s, last) := q.run
    ({ s with tokens := t :: s.tokens }, last)
  | ⟨.silent q, _⟩ => q.run
  | ⟨.finish t q, _⟩ => (⟨[], t.pos⟩, q)
termination_by p.unread
decreasing_by all_goals assumption

theorem next_eq (p : Preprocessor) :
    p.next =
      match p.step with
      | .token t q => (t, q)
      | .finish t q => (t, q)
      | .silent q => q.next := by
  rw [next, checkedStep]
  split <;> simp_all

theorem run_eq (p : Preprocessor) :
    p.run =
      match p.step with
      | .token t q => ({ q.run.1 with tokens := t :: q.run.1.tokens }, q.run.2)
      | .silent q => q.run
      | .finish t q => (⟨[], t.pos⟩, q) := by
  rw [run, checkedStep]
  split <;> simp_all

end SmallC.Preprocessor
