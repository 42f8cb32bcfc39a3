import Mathlib
import SmallC.Assembly.FrameTable
import SmallC.Assembly.Slots

/-!
# Frame tables are lists of names

To its callers a frame table is the list of the names that were declared since the last reset, the oldest first and
each of them once. Nothing else in it can be observed: not the names interned for earlier functions, and not a
refused declaration. The relation between table and list holds whatever the history, with offsets that wrap around;
as long as there are fewer than `2 ^ 29` names, none does.
-/
namespace SmallC.Assembly

open Interner (symbol? intern)

/-- What is relied on of a store: a name in it keeps its symbol, equal names have equal symbols and different
names have different ones. -/
class LawfulInterner (Store : Type) (Symbol : outParam Type) [Interner Store Symbol] : Prop where
  symbol?_intern (s : Store) (name : String) : symbol? (intern s name).2 name = some (intern s name).1
  symbol?_intern_other (s : Store) {name other : String} (h : other ≠ name) :
    symbol? (intern s name).2 other = symbol? s other
  intern_of_symbol? {s : Store} {name : String} {symbol : Symbol} (h : symbol? s name = some symbol) :
    (intern s name).1 = symbol
  symbol?_inj {s : Store} {name other : String} {symbol : Symbol} (h : symbol? s name = some symbol)
    (h' : symbol? s other = some symbol) : name = other

/-- Interning a name leaves the symbols that there are. -/
theorem symbol?_intern_of_some {Store Symbol : Type} [Interner Store Symbol] [LawfulInterner Store Symbol]
    {store : Store} {symbol : Symbol} {name other : String} (h : symbol? store other = some symbol) :
    symbol? (intern store name).2 other = some symbol := by
  by_cases hname : other = name
  · subst hname
    rw [LawfulInterner.symbol?_intern, LawfulInterner.intern_of_symbol? h]
  · rw [LawfulInterner.symbol?_intern_other store hname, h]

instance : LawfulInterner Numbering Nat where
  symbol?_intern s name := by
    change (s.add name).2.place? name = some (s.add name).1
    cases hplace : s.place? name with
    | some place => rw [Numbering.add, hplace, hplace]
    | none =>
      rw [Numbering.add, hplace, Numbering.place?, Slots.idxOf?_concat, if_pos rfl]
      exact congrArg (Option.or · _) hplace
  symbol?_intern_other s name other h := by
    change (s.add name).2.place? other = s.place? other
    cases hplace : s.place? name with
    | some place => rw [Numbering.add, hplace]
    | none =>
      rw [Numbering.add, hplace, Numbering.place?, Slots.idxOf?_concat, if_neg h, Option.or_none]
      rfl
  intern_of_symbol? {s name place} h := by
    have hplace : s.place? name = some place := h
    change (s.add name).1 = place
    rw [Numbering.add, hplace]
  symbol?_inj h h' := by
    obtain ⟨_, hname, -⟩ := List.idxOf?_eq_some_iff.1 h
    obtain ⟨_, hother, -⟩ := List.idxOf?_eq_some_iff.1 h'
    exact hname.symm.trans hother

/-- A call to a frame table. -/
inductive FrameCall where
  | declare (name : String)
  | lookup (name : String)
  | reset

namespace FrameCall

/-- The names passed to `declare` since the last reset, with one more call. -/
def track (names : List String) : FrameCall → List String
  | declare name => names ++ [name]
  | lookup _ => names
  | reset => []

/-- The names declared since the last reset, each where it came first. -/
def distinct (calls : List FrameCall) : List String :=
  (calls.foldl track []).eraseDups

theorem distinct_declare (calls : List FrameCall) (name : String) :
    distinct (calls ++ [declare name]) =
      if name ∈ distinct calls then distinct calls else distinct calls ++ [name] := by
  have hcalls : distinct (calls ++ [declare name]) = (calls.foldl track [] ++ [name]).eraseDups := by
    rw [distinct, List.foldl_append]
    rfl
  rw [hcalls, List.eraseDups_append]
  unfold distinct
  by_cases h : name ∈ calls.foldl track []
  · simp [List.removeAll, h]
  · simp [List.removeAll, h, List.eraseDups_cons]

theorem distinct_lookup (calls : List FrameCall) (name : String) :
    distinct (calls ++ [lookup name]) = distinct calls := by
  rw [distinct, List.foldl_append]
  rfl

theorem distinct_reset (calls : List FrameCall) : distinct (calls ++ [reset]) = [] := by
  rw [distinct, List.foldl_append]
  rfl

end FrameCall

namespace Slots

def step (s : Slots) : FrameCall → Slots
  | .declare name => s.declare name
  | .lookup _ => s
  | .reset => {}

def answer (s : Slots) : FrameCall → Option Int
  | .declare name => s.newOffset? name
  | .lookup name => s.offset? name
  | .reset => none

def run (s : Slots) (calls : List FrameCall) : Slots :=
  calls.foldl step s

theorem run_concat (s : Slots) (calls : List FrameCall) (call : FrameCall) :
    s.run (calls ++ [call]) = (s.run calls).step call :=
  List.foldl_append

/-- The slots are those of the names that were declared, in the order in which they came first. -/
theorem names_run (calls : List FrameCall) : (run {} calls).names = FrameCall.distinct calls := by
  induction calls using List.reverseRecOn with
  | nil => rfl
  | append_singleton calls call ih =>
    rw [run_concat]
    cases call with
    | declare name =>
      rw [FrameCall.distinct_declare, ← ih, step, declare]
      split <;> rfl
    | lookup name => rw [FrameCall.distinct_lookup, ← ih, step]
    | reset => rw [FrameCall.distinct_reset, step]

theorem nodup_step {s : Slots} (h : s.names.Nodup) (call : FrameCall) : (s.step call).names.Nodup := by
  cases call with
  | declare name =>
    by_cases hname : name ∈ s.names
    · rwa [step, declare, if_pos hname]
    · rw [step, names_declare hname, ← List.concat_eq_append]
      exact h.concat hname
  | lookup name => exact h
  | reset => exact List.nodup_nil

theorem nodup_run {s : Slots} (h : s.names.Nodup) (calls : List FrameCall) : (s.run calls).names.Nodup := by
  induction calls generalizing s with
  | nil => exact h
  | cons call calls ih => exact ih (nodup_step h call)

/-- The `k`-th name has the `k`-th slot below the frame pointer. -/
theorem offset?_eq_iff {s : Slots} (h : s.names.Nodup) (name : String) (k : Nat) :
    s.offset? name = some (-4 * (k : Int)) ↔ 0 < k ∧ s.names[k - 1]? = some name := by
  rw [offset?, Option.map_eq_some_iff]
  constructor
  · rintro ⟨i, hi, hoffset⟩
    obtain ⟨hlt, hname, -⟩ := List.idxOf?_eq_some_iff.1 hi
    obtain rfl : k = i + 1 := by
      unfold offsetAt at hoffset
      omega
    exact ⟨Nat.succ_pos i, List.getElem?_eq_some_iff.2 ⟨hlt, hname⟩⟩
  · rintro ⟨hk, hname⟩
    obtain ⟨hlt, hname⟩ := List.getElem?_eq_some_iff.1 hname
    refine ⟨k - 1, List.idxOf?_eq_some_iff.2 ⟨hlt, hname, fun j hj hsame => ?_⟩, ?_⟩
    · exact absurd (h.getElem_inj_iff.1 (hsame.trans hname.symm)) (Nat.ne_of_lt hj)
    · unfold offsetAt
      omega

theorem offsetAt_succ (index : Nat) : offsetAt (index + 1) = offsetAt index - 4 := by
  unfold offsetAt
  omega

/-- Offsets of the first `2 ^ 29` slots fit into 32 bits. -/
theorem toInt_offsetAt {index : Nat} (h : index < 2 ^ 29) :
    (Int32.ofInt (offsetAt index)).toInt = offsetAt index := by
  apply Int32.toInt_ofInt_of_le
  · unfold offsetAt
    omega
  · unfold offsetAt
    omega

-- the next one does not
example : (Int32.ofInt (offsetAt (2 ^ 29))).toInt = 2 ^ 31 - 4 := by decide

end Slots

namespace FrameTable

variable {Store Symbol : Type} [DecidableEq Symbol] [Interner Store Symbol]

def step (t : FrameTable Store Symbol) : FrameCall → FrameTable Store Symbol
  | .declare name => (t.declare name).2
  | .lookup _ => t
  | .reset => t.reset

def answer (t : FrameTable Store Symbol) : FrameCall → Option Int32
  | .declare name => (t.declare name).1
  | .lookup name => t.offset? name
  | .reset => none

def run (t : FrameTable Store Symbol) (calls : List FrameCall) : FrameTable Store Symbol :=
  calls.foldl step t

/-- The answers to calls, each with the size after the call. -/
def answers (t : FrameTable Store Symbol) : List FrameCall → List (Option Int32 × Nat)
  | [] => []
  | call :: calls => (t.answer call, (t.step call).size) :: (t.step call).answers calls

/-- How many declarations succeeded since the last reset, if `n` did before the calls. -/
def successes (t : FrameTable Store Symbol) (n : Nat) : List FrameCall → Nat
  | [] => n
  | .declare name :: calls =>
    (t.declare name).2.successes (if (t.declare name).1.isSome then n + 1 else n) calls
  | .lookup _ :: calls => t.successes n calls
  | .reset :: calls => t.reset.successes 0 calls

/-- The table stands for the slots: every name with a slot is interned, its symbol has its offset, and no other
symbol has one. -/
structure Represents (t : FrameTable Store Symbol) (s : Slots) : Prop where
  interned : ∀ name ∈ s.names, ∃ symbol, symbol? t.names name = some symbol
  slot : ∀ name symbol, symbol? t.names name = some symbol →
    t.slots.lookup symbol = (s.offset? name).map Int32.ofInt
  owned : ∀ symbol offset, t.slots.lookup symbol = some offset →
    ∃ name ∈ s.names, symbol? t.names name = some symbol
  size : t.size = s.size
  next : t.next = Int32.ofInt (Slots.offsetAt s.size)

/-- After a reset it does not matter what was interned. -/
theorem represents_reset (t : FrameTable Store Symbol) : Represents t.reset {} where
  interned _ h := nomatch h
  slot _ _ _ := rfl
  owned _ _ h := nomatch h
  size := rfl
  next := rfl

theorem represents_empty : Represents (empty : FrameTable Store Symbol) {} :=
  represents_reset empty

variable {t : FrameTable Store Symbol} {s : Slots} {name : String}

theorem Represents.offset?_eq (h : Represents t s) (name : String) :
    t.offset? name = (s.offset? name).map Int32.ofInt := by
  unfold offset?
  cases hsymbol : symbol? t.names name with
  | some symbol => exact h.slot name symbol hsymbol
  | none =>
    have hname : name ∉ s.names := by
      intro hname
      obtain ⟨symbol, hsome⟩ := h.interned name hname
      rw [hsymbol] at hsome
      exact nomatch hsome
    rw [Slots.offset?_eq_none_iff.2 hname]
    rfl

theorem Represents.toInt_offset? (h : Represents t s) (hfew : s.size < 2 ^ 29) (name : String) :
    (t.offset? name).map Int32.toInt = s.offset? name := by
  rw [h.offset?_eq, Slots.offset?]
  cases hindex : s.names.idxOf? name with
  | none => rfl
  | some index =>
    obtain ⟨hlt, -⟩ := List.idxOf?_eq_some_iff.1 hindex
    exact congrArg some (Slots.toInt_offsetAt (Nat.lt_trans hlt hfew))

variable [LawfulInterner Store Symbol]

/-- The symbol that a name is given has a slot just if the name has one, however long it was interned. -/
theorem Represents.isSome_lookup (h : Represents t s) (name : String) :
    (t.slots.lookup (intern t.names name).1).isSome = true ↔ name ∈ s.names := by
  constructor
  · intro hsome
    obtain ⟨offset, hoffset⟩ := Option.isSome_iff_exists.1 hsome
    obtain ⟨owner, howner, hsymbol⟩ := h.owned _ _ hoffset
    have hname := LawfulInterner.symbol?_intern t.names name
    rwa [LawfulInterner.symbol?_inj hname (symbol?_intern_of_some hsymbol)]
  · intro hname
    obtain ⟨symbol, hsymbol⟩ := h.interned name hname
    rw [LawfulInterner.intern_of_symbol? hsymbol, h.slot name symbol hsymbol, Option.isSome_map,
      Option.isSome_iff_ne_none, ne_eq, Slots.offset?_eq_none_iff, not_not]
    exact hname

/-- A name that has a slot is refused, and only its symbol is looked up. -/
theorem declare_of_mem (h : Represents t s) (hname : name ∈ s.names) :
    t.declare name = (none, { t with names := (intern t.names name).2 }) := by
  unfold declare
  exact if_pos ((h.isSome_lookup name).2 hname)

theorem declare_of_notMem (h : Represents t s) (hname : name ∉ s.names) :
    t.declare name = (some t.next,
      ⟨(intern t.names name).2, ((intern t.names name).1, t.next) :: t.slots, t.next - wordSize⟩) := by
  unfold declare
  exact if_neg (mt (h.isSome_lookup name).1 hname)

/-- The refused name is interned once more, and nothing comes of it. -/
theorem Represents.refuse (h : Represents t s) (hname : name ∈ s.names) :
    Represents { t with names := (intern t.names name).2 } s where
  interned other hother := by
    obtain ⟨symbol, hsymbol⟩ := h.interned other hother
    exact ⟨symbol, symbol?_intern_of_some hsymbol⟩
  slot other symbol hsymbol := by
    by_cases hother : other = name
    · subst hother
      obtain ⟨old, hold⟩ := h.interned other hname
      have hnew : symbol? (intern t.names other).2 other = some old := symbol?_intern_of_some hold
      obtain rfl : old = symbol := Option.some.inj (hnew.symm.trans hsymbol)
      exact h.slot other old hold
    · rw [LawfulInterner.symbol?_intern_other t.names hother] at hsymbol
      exact h.slot other symbol hsymbol
  owned symbol offset hoffset := by
    obtain ⟨owner, howner, hsymbol⟩ := h.owned symbol offset hoffset
    exact ⟨owner, howner, symbol?_intern_of_some hsymbol⟩
  size := h.size
  next := h.next

/-- A new name gets the offset behind the last. Its symbol may be older than the slots, but none of them has it. -/
theorem Represents.add (h : Represents t s) (hname : name ∉ s.names) :
    Represents ⟨(intern t.names name).2, ((intern t.names name).1, t.next) :: t.slots, t.next - wordSize⟩
      (s.declare name) where
  interned other hother := by
    rw [Slots.names_declare hname, List.mem_append, List.mem_singleton] at hother
    rcases hother with hother | rfl
    · obtain ⟨symbol, hsymbol⟩ := h.interned other hother
      exact ⟨symbol, symbol?_intern_of_some hsymbol⟩
    · exact ⟨_, LawfulInterner.symbol?_intern t.names other⟩
  slot other symbol hsymbol := by
    have hself := LawfulInterner.symbol?_intern t.names name
    by_cases hother : other = name
    · subst hother
      obtain rfl : (intern t.names other).1 = symbol := Option.some.inj (hself.symm.trans hsymbol)
      rw [List.lookup_cons_self, Slots.offset?_declare hname, h.next]
      rfl
    · have hne : (symbol == (intern t.names name).1) = false := by
        refine beq_false_of_ne fun heq => hother ?_
        rw [heq] at hsymbol
        exact LawfulInterner.symbol?_inj hsymbol hself
      rw [LawfulInterner.symbol?_intern_other t.names hother] at hsymbol
      rw [List.lookup_cons, hne, Slots.offset?_declare_other hother]
      exact h.slot other symbol hsymbol
  owned symbol offset hoffset := by
    rw [Slots.names_declare hname]
    by_cases hsymbol : symbol = (intern t.names name).1
    · subst hsymbol
      exact ⟨name, List.mem_append_right _ List.mem_cons_self, LawfulInterner.symbol?_intern t.names name⟩
    · rw [List.lookup_cons, beq_false_of_ne hsymbol] at hoffset
      obtain ⟨owner, howner, hsymbol⟩ := h.owned symbol offset hoffset
      exact ⟨owner, List.mem_append_left _ howner, symbol?_intern_of_some hsymbol⟩
  size := by
    rw [Slots.size_declare hname, ← h.size]
    rfl
  next := by
    have hword : wordSize = Int32.ofInt 4 := rfl
    rw [Slots.size_declare hname, Slots.offsetAt_succ, Int32.ofInt_sub, ← h.next, ← hword]

theorem Represents.declare (h : Represents t s) (name : String) :
    (t.declare name).1 = (s.newOffset? name).map Int32.ofInt ∧
      Represents (t.declare name).2 (s.declare name) := by
  unfold Slots.newOffset?
  by_cases hname : name ∈ s.names
  · rw [declare_of_mem h hname, Slots.declare, if_pos hname, if_pos hname]
    exact ⟨rfl, h.refuse hname⟩
  · rw [declare_of_notMem h hname, if_neg hname]
    exact ⟨congrArg some h.next, h.add hname⟩

theorem Represents.step (h : Represents t s) (call : FrameCall) :
    t.answer call = (s.answer call).map Int32.ofInt ∧ Represents (t.step call) (s.step call) := by
  cases call with
  | declare name => exact h.declare name
  | lookup name => exact ⟨h.offset?_eq name, h⟩
  | reset => exact ⟨rfl, represents_reset t⟩

theorem Represents.run (h : Represents t s) (calls : List FrameCall) :
    Represents (t.run calls) (s.run calls) := by
  induction calls generalizing t s with
  | nil => exact h
  | cons call calls ih => exact ih (h.step call).2

/-- Tables that stand for the same slots cannot be told apart. -/
theorem Represents.answers_eq {t' : FrameTable Store Symbol} (h : Represents t s) (h' : Represents t' s)
    (calls : List FrameCall) : t.answers calls = t'.answers calls := by
  induction calls generalizing t t' s with
  | nil => rfl
  | cons call calls ih =>
    obtain ⟨hanswer, hstep⟩ := h.step call
    obtain ⟨hanswer', hstep'⟩ := h'.step call
    rw [answers, answers, hanswer, hanswer', hstep.size, hstep'.size, ih hstep hstep']

theorem Represents.successes_eq (h : Represents t s) (calls : List FrameCall) :
    t.successes s.size calls = (s.run calls).size := by
  induction calls generalizing t s with
  | nil => rfl
  | cons call calls ih =>
    have hnext := ih (h.step call).2
    cases call with
    | declare name =>
      have hsize : (if (t.declare name).1.isSome then s.size + 1 else s.size) = (s.declare name).size := by
        by_cases hname : name ∈ s.names
        · rw [declare_of_mem h hname, Slots.declare, if_pos hname]
          rfl
        · rw [declare_of_notMem h hname, Slots.size_declare hname]
          rfl
      rw [successes, hsize]
      exact hnext
    | lookup name => exact hnext
    | reset => exact hnext

theorem Represents.declare_eq_none_iff (h : Represents t s) (name : String) :
    (t.declare name).1 = none ↔ name ∈ s.names := by
  by_cases hname : name ∈ s.names
  · simp [declare_of_mem h hname, hname]
  · simp [declare_of_notMem h hname, hname]

/-- The offset behind a new slot is worked out without wrapping around. -/
theorem Represents.toInt_next (h : Represents t s) (hname : name ∉ s.names)
    (hfew : (s.declare name).size < 2 ^ 29) :
    (t.next - wordSize).toInt = t.next.toInt - wordSize.toInt := by
  rw [Slots.size_declare hname] at hfew
  have hnext : t.next.toInt = Slots.offsetAt s.size := by
    rw [h.next, Slots.toInt_offsetAt (Nat.lt_of_succ_lt hfew)]
  have hafter : (t.next - wordSize).toInt = Slots.offsetAt (s.size + 1) := by
    rw [← Slots.toInt_offsetAt hfew, ← Slots.size_declare hname]
    exact congrArg Int32.toInt (h.add hname).next
  rw [hafter, hnext, Slots.offsetAt_succ]
  rfl

/-- A table is the list of the names declared since the last reset, each where it came first. With fewer than
`2 ^ 29` of them no offset wraps around, and neither a refused name nor what was before the reset is seen. -/
theorem table_refines_distinct_names (calls : List FrameCall)
    (hfew : ∀ past, past <+: calls → (empty : FrameTable Store Symbol).successes 0 past < 2 ^ 29) :
    let t : FrameTable Store Symbol := empty.run calls
    let names := FrameCall.distinct calls
    (∀ name, ∀ k : Nat, (t.offset? name).map Int32.toInt = some (-4 * (k : Int)) ↔
        0 < k ∧ names[k - 1]? = some name) ∧
      (∀ name, t.offset? name = none ↔ name ∉ names) ∧
      (∀ name, (t.declare name).1 = none ↔ name ∈ names) ∧
      (∀ name, (t.declare name).1 = none →
        (t.declare name).2.size = t.size ∧ (t.declare name).2.next = t.next ∧
          ∀ later, (t.declare name).2.answers later = t.answers later) ∧
      t.size = names.length ∧
      (∀ past name, past ++ [.declare name] <+: calls →
        let before : FrameTable Store Symbol := empty.run past
        (before.declare name).1 ≠ none →
          (before.next - wordSize).toInt = before.next.toInt - wordSize.toInt) ∧
      ∀ later, t.reset.answers later = (empty : FrameTable Store Symbol).answers later := by
  intro t names
  have hempty : Represents (empty : FrameTable Store Symbol) {} := represents_empty
  have hsize : ∀ past, past <+: calls → (Slots.run {} past).size < 2 ^ 29 := by
    intro past hpast
    rw [← hempty.successes_eq past]
    exact hfew past hpast
  have ht : Represents t (Slots.run {} calls) := hempty.run calls
  have hnames : (Slots.run {} calls).names = names := Slots.names_run calls
  have hnodup : (Slots.run {} calls).names.Nodup := Slots.nodup_run List.nodup_nil calls
  refine ⟨?_, ?_, ?_, ?_, ?_, ?_, ?_⟩
  · intro name k
    rw [ht.toInt_offset? (hsize calls (List.prefix_refl calls)), Slots.offset?_eq_iff hnodup, hnames]
  · intro name
    rw [ht.offset?_eq, Option.map_eq_none_iff, Slots.offset?_eq_none_iff, hnames]
  · intro name
    rw [ht.declare_eq_none_iff, hnames]
  · intro name hnone
    have hname := (ht.declare_eq_none_iff name).1 hnone
    rw [declare_of_mem ht hname]
    exact ⟨rfl, rfl, (ht.refuse hname).answers_eq ht⟩
  · rw [ht.size, Slots.size, hnames]
  · intro past name hpast before hsome
    have hbefore : Represents before (Slots.run {} past) := hempty.run past
    have hname := mt (hbefore.declare_eq_none_iff name).2 hsome
    have hafter := hsize _ hpast
    rw [Slots.run_concat] at hafter
    exact hbefore.toInt_next hname hafter
  · exact (represents_reset t).answers_eq hempty

/-- Two names, and after a reset the same two the other way round, one of them twice. -/
def swapped : List FrameCall :=
  [.declare "x", .declare "y", .reset, .declare "y", .declare "y", .lookup "x", .declare "x"]

theorem swapped_start_over :
    let t : FrameTable Numbering Nat := empty.run swapped
    (∀ past, past <+: swapped → (empty : FrameTable Numbering Nat).successes 0 past < 2 ^ 29) ∧
      (t.offset? "y").map Int32.toInt = some (-4) ∧ (t.offset? "x").map Int32.toInt = some (-8) ∧
      t.offset? "z" = none ∧ (t.declare "y").1 = none ∧ t.size = 2 ∧
      ∀ later, t.reset.answers later = (empty : FrameTable Numbering Nat).answers later := by
  intro t
  have hfew : ∀ past, past <+: swapped → (empty : FrameTable Numbering Nat).successes 0 past < 2 ^ 29 := by
    intro past hpast
    have hall : ∀ past ∈ swapped.inits, (empty : FrameTable Numbering Nat).successes 0 past < 2 ^ 29 := by
      decide
    exact hall past (List.mem_inits past swapped |>.2 hpast)
  have hnames : FrameCall.distinct swapped = ["y", "x"] := by decide
  obtain ⟨hoffset, hnone, hrefused, -, hsize, -, hreset⟩ :=
    table_refines_distinct_names swapped hfew
  rw [hnames] at hoffset hnone hrefused hsize
  exact ⟨hfew, (hoffset "y" 1).2 ⟨by decide, rfl⟩, (hoffset "x" 2).2 ⟨by decide, rfl⟩,
    (hnone "z").2 (by decide), (hrefused "y").2 (by decide), hsize, hreset⟩

end FrameTable

end SmallC.Assembly
