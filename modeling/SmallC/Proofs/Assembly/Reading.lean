import Mathlib
import SmallC.Assembly
import SmallC.Proofs.Outline

/-!
# Reading assembly

A line of assembly is told by its first character. An instruction proper is then read word by word: its
mnemonic and its operands, the first of two with a comma behind it. Everything that was written comes back, but
a value comes back as the number that it is spelled as, since nothing on the line tells the two apart.
-/
namespace SmallC

namespace Text

/-- The text can be one word of a line. -/
def isUnbroken (s : String) : Bool :=
  s.toList.all fun c => c != ' ' && c != '\n'

theorem isUnbroken_iff {s : String} : isUnbroken s = true ↔ ∀ c ∈ s.toList, c ≠ ' ' ∧ c ≠ '\n' := by
  simp [isUnbroken]

theorem isUnbroken_append (s t : String) : isUnbroken (s ++ t) = (isUnbroken s && isUnbroken t) := by
  rw [isUnbroken, String.toList_append, List.all_append]
  rfl

theorem space_notMem {s : String} (h : isUnbroken s = true) : ' ' ∉ s.toList :=
  fun hmem => (isUnbroken_iff.1 h _ hmem).1 rfl

theorem newline_notMem {s : String} (h : isUnbroken s = true) : '\n' ∉ s.toList :=
  fun hmem => (isUnbroken_iff.1 h _ hmem).2 rfl

theorem isUnbroken_of_word {s : String} (h : ∀ c ∈ s.toList, isWordPart c = true) : isUnbroken s = true := by
  refine isUnbroken_iff.2 fun c hc => ⟨?_, ?_⟩ <;>
  · rintro rfl
    exact absurd (h _ hc) (by decide)

theorem isWordPart_of_isName {s : String} (h : isName s = true) : ∀ c ∈ s.toList, isWordPart c = true := by
  unfold isName at h
  split at h
  · exact nomatch h
  · next c cs hs =>
    simp only [Bool.and_eq_true, List.all_eq_true] at h
    obtain ⟨⟨⟨hc, hcs⟩, -⟩, -⟩ := h
    rw [hs]
    exact List.forall_mem_cons.2 ⟨isWordPart_of_isWordStart hc, hcs⟩

theorem isUnbroken_name {s : String} (h : isName s = true) : isUnbroken s = true :=
  isUnbroken_of_word (isWordPart_of_isName h)

theorem isUnbroken_number {s : String} (h : isNumber s = true) : isUnbroken s = true := by
  unfold isNumber at h
  rw [Bool.and_eq_true, List.all_eq_true] at h
  exact isUnbroken_of_word fun c hc => Scan.isWordPart_of_isDigit (h.2 c hc)

/-- An integer is written with digits and a sign. -/
theorem isDigit_or_sign_of_mem {z : Int} {c : Char} (h : c ∈ (toString z).toList) :
    c.isDigit = true ∨ c = '-' := by
  have hdigit : ∀ n : Nat, c ∈ n.repr.toList → c.isDigit = true := by
    intro n hc
    rw [Nat.toList_repr] at hc
    exact Nat.isDigit_of_mem_toDigits (by decide) (by decide) hc
  cases z with
  | ofNat n => exact .inl (hdigit n h)
  | negSucc n =>
    change c ∈ ("-" ++ (n + 1).repr).toList at h
    rw [String.toList_append, List.mem_append] at h
    rcases h with h | h
    · exact .inr (List.mem_singleton.1 h)
    · exact .inl (hdigit (n + 1) h)

theorem notMem_int {c : Char} (hdigit : c.isDigit = false) (hsign : c ≠ '-') (z : Int) :
    c ∉ (toString z).toList := by
  intro h
  rcases isDigit_or_sign_of_mem h with h | h
  · exact absurd (h.symm.trans hdigit) (by decide)
  · exact hsign h

theorem isUnbroken_int (z : Int) : isUnbroken (toString z) = true := by
  refine isUnbroken_iff.2 fun c hc => ⟨?_, ?_⟩ <;>
  · rintro rfl
    exact notMem_int rfl (by decide) z hc

/-- The number that lower-case hexadecimal digits stand for. -/
def ofHex (digits : List Char) : Nat :=
  digits.foldl (fun n c => 16 * n + if c.isDigit then c.toNat - '0'.toNat else c.toNat - 'a'.toNat + 10) 0

theorem ofHex_toDigits : ∀ n < UInt8.size, ofHex (Nat.toDigits 16 n) = n := by
  decide +kernel

theorem isUnbroken_toDigits : ∀ n < UInt8.size, (Nat.toDigits 16 n).all fun c => c != ' ' && c != '\n' := by
  decide +kernel

theorem isUnbroken_hex (n : UInt8) : isUnbroken (hex n.toNat) = true := by
  rw [isUnbroken, hex, String.toList_ofList]
  exact isUnbroken_toDigits _ n.toNat_lt

end Text

namespace Assembly

namespace Register

def all : List Register :=
  [.eax, .ebx, .ecx, .edx, .esp, .ebp, .al, .cl]

/-- The register that is written so. -/
def read? (s : String) : Option Register :=
  all.find? (·.render == s)

theorem read?_render (r : Register) : read? r.render = some r := by
  cases r <;> decide

theorem isUnbroken_render (r : Register) : Text.isUnbroken r.render = true := by
  cases r <;> decide

end Register

namespace Condition

def all : List Condition :=
  [.equal, .notEqual, .less, .lessEqual, .greater, .greaterEqual]

/-- The condition that a mnemonic has behind a stem. -/
def read? (stem mnemonic : String) : Option Condition :=
  all.find? fun c => stem ++ c.render == mnemonic

theorem isUnbroken_append {stem : String} (h : Text.isUnbroken stem = true) (c : Condition) :
    Text.isUnbroken (stem ++ c.render) = true := by
  rw [Text.isUnbroken_append, h]
  cases c <;> rfl

end Condition

namespace Operand

/-- A register has a percent sign in front and a number a dollar sign. Anything else is a displacement with a
register in parentheses behind it. -/
def read? (s : String) : Option Operand :=
  match s.toList with
  | '%' :: _ => (Register.read? s).map reg
  | '$' :: digits => some (literal (String.ofList digits))
  | cs => do
    let displacement ← (String.ofList (cs.takeWhile (· ≠ '('))).toInt?
    let base ← Register.read? (String.ofList (cs.dropWhile (· ≠ '(')).tail.dropLast)
    return mem displacement base

/-- The operand with a value spelled out. -/
def spelled : Operand → Operand
  | imm value => literal (toString value)
  | op => op

/-- A number does not look like the end of a word. -/
def isLegible : Operand → Bool
  | literal digits => Text.isUnbroken digits
  | _ => true

theorem render_spelled (op : Operand) : op.spelled.render = op.render := by
  cases op <;> rfl

theorem isUnbroken_render {op : Operand} (h : op.isLegible = true) : Text.isUnbroken op.render = true := by
  cases op with
  | reg r => exact r.isUnbroken_render
  | imm value =>
    rw [render, Text.isUnbroken_append, Text.isUnbroken_int]
    rfl
  | literal digits =>
    rw [render, Text.isUnbroken_append]
    exact h
  | mem displacement base =>
    rw [render, Text.isUnbroken_append, Text.isUnbroken_append, Text.isUnbroken_append, Text.isUnbroken_int,
      base.isUnbroken_render]
    rfl

theorem read?_number (digits : String) : read? ("$" ++ digits) = some (literal digits) := by
  have htext : ("$" ++ digits).toList = '$' :: digits.toList := String.toList_append
  rw [read?, htext]
  exact congrArg (some ∘ literal) String.ofList_toList

/-- The displacement ends at the parenthesis, so it is read as the integer that it is. -/
theorem read?_mem (displacement : Int) (base : Register) :
    read? (mem displacement base).render = some (mem displacement base) := by
  have htext : (mem displacement base).render.toList =
      (toString displacement).toList ++ '(' :: (base.render.toList ++ [')']) := by
    rw [render, String.toList_append, String.toList_append, String.toList_append, List.append_assoc,
      List.append_assoc]
    rfl
  have hbefore : ∀ c ∈ (toString displacement).toList, decide (c ≠ '(') = true := by
    intro c hc
    refine decide_eq_true ?_
    rintro rfl
    exact Text.notMem_int rfl (by decide) displacement hc
  have hdisplacement : (toString displacement).toInt? = some displacement := Int.toInt?_repr displacement
  have hstart : ∀ {c cs}, (mem displacement base).render.toList = c :: cs →
      c.isDigit = true ∨ c = '-' ∨ c = '(' := by
    intro c cs hcs
    rw [htext, List.append_eq_cons_iff] at hcs
    rcases hcs with ⟨-, hcs⟩ | ⟨digits, hdigits, -⟩
    · exact .inr (.inr (List.cons.inj hcs).1.symm)
    · have hmem : c ∈ (toString displacement).toList := hdigits ▸ List.mem_cons_self
      exact (Text.isDigit_or_sign_of_mem hmem).imp id .inl
  rw [read?]
  split
  · next hcs => exact absurd (hstart hcs) (by decide)
  · next hcs => exact absurd (hstart hcs) (by decide)
  · rw [htext, List.takeWhile_append_of_pos hbefore, List.dropWhile_append_of_pos hbefore,
      List.takeWhile_cons_of_neg (by decide), List.dropWhile_cons_of_neg (by decide), List.append_nil,
      String.ofList_toList, hdisplacement, List.tail_cons, List.dropLast_concat, String.ofList_toList,
      base.read?_render]
    rfl

theorem read?_render (op : Operand) : read? op.render = some op.spelled := by
  cases op with
  | reg r => cases r <;> decide
  | imm value => exact read?_number _
  | literal digits => exact read?_number digits
  | mem displacement base => exact read?_mem displacement base

end Operand

namespace Instruction

/-- Mnemonics that go with any one operand. -/
def unaries : List (String × (Operand → Instruction)) :=
  [("pushl", pushl), ("idivl", idivl), ("negl", negl), ("incl", incl), ("decl", decl), ("notl", notl)]

/-- Mnemonics that go with any two operands. -/
def binaries : List (String × (Operand → Operand → Instruction)) :=
  [("movl", movl), ("addl", addl), ("subl", subl), ("andl", andl), ("orl", orl), ("xorl", xorl),
    ("cmpl", cmpl)]

/-- A mnemonic with one operand. -/
def readOne? (mnemonic word : String) : Option Instruction :=
  match unaries.lookup mnemonic with
  | some make => (Operand.read? word).map make
  | none =>
    match mnemonic with
    | "popl" => (Register.read? word).map popl
    | "jmp" => some (jmp word)
    | "call" => some (call word)
    | "int" => some (int (UInt8.ofNat (Text.ofHex (word.toList.drop 3))))
    | _ =>
      match Condition.read? "set" mnemonic with
      | some c => (Register.read? word).map (set c)
      | none => (Condition.read? "j" mnemonic).map (jcc · word)

/-- A mnemonic with two operands. -/
def readTwo? (mnemonic first second : String) : Option Instruction :=
  match binaries.lookup mnemonic with
  | some make => do return make (← Operand.read? first) (← Operand.read? second)
  | none =>
    match mnemonic with
    | "imull" => do return imull (← Operand.read? first) (← Register.read? second)
    | "sall" => do return sall (← Register.read? first) (← Operand.read? second)
    | "sarl" => do return sarl (← Register.read? first) (← Operand.read? second)
    | _ => none

/-- The words of an instruction proper; there is a comma behind the first of two operands. -/
def readWords? : List (List Char) → Option Instruction
  | [mnemonic] =>
    match String.ofList mnemonic with
    | "cdq" => some cdq
    | "ret" => some ret
    | _ => none
  | [mnemonic, word] => readOne? (String.ofList mnemonic) (String.ofList word)
  | [mnemonic, first, second] =>
    readTwo? (String.ofList mnemonic) (String.ofList first.dropLast) (String.ofList second)
  | _ => none

/-- The instruction that a line says. -/
def read? (line : String) : Option Instruction :=
  match line.toList with
  | [] => some blank
  | '#' :: ' ' :: text => some (comment (String.ofList text))
  | '.' :: _ => some (directive line)
  | ' ' :: ' ' :: ' ' :: ' ' :: words => readWords? (words.splitOn ' ')
  | name => some (label (String.ofList name.dropLast))

/-- The instruction with its values spelled out. -/
def spelled : Instruction → Instruction
  | movl src dst => movl src.spelled dst.spelled
  | pushl op => pushl op.spelled
  | addl src dst => addl src.spelled dst.spelled
  | subl src dst => subl src.spelled dst.spelled
  | imull src dst => imull src.spelled dst
  | idivl op => idivl op.spelled
  | negl op => negl op.spelled
  | incl op => incl op.spelled
  | decl op => decl op.spelled
  | andl src dst => andl src.spelled dst.spelled
  | orl src dst => orl src.spelled dst.spelled
  | xorl src dst => xorl src.spelled dst.spelled
  | notl op => notl op.spelled
  | sall count dst => sall count dst.spelled
  | sarl count dst => sarl count dst.spelled
  | cmpl src dst => cmpl src.spelled dst.spelled
  | i => i

/-- Names are spelled like names, and nothing looks like the end of a word, of an operand or of the line. -/
def isLegible : Instruction → Bool
  | movl src dst | addl src dst | subl src dst | andl src dst | orl src dst | xorl src dst
  | cmpl src dst => src.isLegible && dst.isLegible
  | pushl op | idivl op | negl op | incl op | decl op | notl op | imull op _ | sall _ op
  | sarl _ op => op.isLegible
  | jmp name | jcc _ name | call name | label name => Text.isName name
  | comment text => decide ('\n' ∉ text.toList)
  | directive text => text.toList.head? == some '.' && decide ('\n' ∉ text.toList)
  | _ => true

theorem render_spelled (i : Instruction) : i.spelled.render = i.render := by
  cases i <;> simp only [spelled, render, Operand.render_spelled]

variable {mnemonic a b : String}

theorem read?_indented {s : String} {words : List Char}
    (h : s.toList = ' ' :: ' ' :: ' ' :: ' ' :: words) : read? s = readWords? (words.splitOn ' ') := by
  rw [read?, h]
  rfl

theorem read?_line_nil (h : Text.isUnbroken mnemonic = true) :
    read? (line mnemonic []) = readWords? [mnemonic.toList] := by
  have htext : (line mnemonic []).toList = ' ' :: ' ' :: ' ' :: ' ' :: mnemonic.toList :=
    String.toList_append
  rw [read?_indented htext, List.splitOn_eq_singleton (Text.space_notMem h)]

theorem read?_line_one (h : Text.isUnbroken mnemonic = true) (ha : Text.isUnbroken a = true) :
    read? (line mnemonic [a]) = readOne? mnemonic a := by
  have htext : (line mnemonic [a]).toList =
      ' ' :: ' ' :: ' ' :: ' ' :: (mnemonic.toList ++ ' ' :: a.toList) := by
    simp [line]
  have hwords : (mnemonic.toList ++ ' ' :: a.toList).splitOn ' ' = [mnemonic.toList, a.toList] := by
    rw [List.splitOn_append_cons_self_of_not_mem (Text.space_notMem h),
      List.splitOn_eq_singleton (Text.space_notMem ha)]
  rw [read?_indented htext, hwords, readWords?, String.ofList_toList, String.ofList_toList]

theorem read?_line_two (h : Text.isUnbroken mnemonic = true) (ha : Text.isUnbroken a = true)
    (hb : Text.isUnbroken b = true) : read? (line mnemonic [a, b]) = readTwo? mnemonic a b := by
  have htext : (line mnemonic [a, b]).toList =
      ' ' :: ' ' :: ' ' :: ' ' :: (mnemonic.toList ++ ' ' :: (a.toList ++ [','] ++ ' ' :: b.toList)) := by
    simp [line]
  have hfirst : ' ' ∉ a.toList ++ [','] := by
    simp [Text.space_notMem ha]
  have hwords : (mnemonic.toList ++ ' ' :: (a.toList ++ [','] ++ ' ' :: b.toList)).splitOn ' ' =
      [mnemonic.toList, a.toList ++ [','], b.toList] := by
    rw [List.splitOn_append_cons_self_of_not_mem (Text.space_notMem h),
      List.splitOn_append_cons_self_of_not_mem hfirst, List.splitOn_eq_singleton (Text.space_notMem hb)]
  rw [read?_indented htext, hwords, readWords?, List.dropLast_concat, String.ofList_toList, String.ofList_toList,
    String.ofList_toList]

theorem read?_unary {make : Operand → Instruction} {op : Operand} (hm : Text.isUnbroken mnemonic = true)
    (h : unaries.lookup mnemonic = some make) (hop : op.isLegible = true) :
    read? (line mnemonic [op.render]) = some (make op.spelled) := by
  rw [read?_line_one hm (Operand.isUnbroken_render hop)]
  unfold readOne?
  rw [h, Operand.read?_render]
  rfl

theorem read?_binary {make : Operand → Operand → Instruction} {src dst : Operand}
    (hm : Text.isUnbroken mnemonic = true) (h : binaries.lookup mnemonic = some make)
    (hops : (src.isLegible && dst.isLegible) = true) :
    read? (line mnemonic [src.render, dst.render]) = some (make src.spelled dst.spelled) := by
  obtain ⟨hsrc, hdst⟩ := Bool.and_eq_true_iff.1 hops
  rw [read?_line_two hm (Operand.isUnbroken_render hsrc) (Operand.isUnbroken_render hdst)]
  unfold readTwo?
  rw [h, Operand.read?_render, Operand.read?_render]
  rfl

/-- A shift has its count in a register. -/
theorem read?_shift {make : Register → Operand → Instruction} {count : Register} {dst : Operand}
    (hm : Text.isUnbroken mnemonic = true)
    (h : ∀ a b, readTwo? mnemonic a b = do return make (← Register.read? a) (← Operand.read? b))
    (hdst : dst.isLegible = true) :
    read? (line mnemonic [count.render, dst.render]) = some (make count dst.spelled) := by
  rw [read?_line_two hm count.isUnbroken_render (Operand.isUnbroken_render hdst), h, count.read?_render,
    Operand.read?_render]
  rfl

theorem read?_imull {src : Operand} (dst : Register) (hsrc : src.isLegible = true) :
    read? (imull src dst).render = some (imull src.spelled dst) := by
  have hread : ∀ a b, readTwo? "imull" a b = do return imull (← Operand.read? a) (← Register.read? b) :=
    fun _ _ => rfl
  rw [render, read?_line_two rfl (Operand.isUnbroken_render hsrc) dst.isUnbroken_render, hread,
    Operand.read?_render, dst.read?_render]
  rfl

theorem read?_popl (r : Register) : read? (popl r).render = some (popl r) := by
  have hread : ∀ a, readOne? "popl" a = (Register.read? a).map popl := fun _ => rfl
  rw [render, read?_line_one rfl r.isUnbroken_render, hread, r.read?_render]
  rfl

theorem read?_set (c : Condition) (r : Register) : read? (set c r).render = some (set c r) := by
  have hread : ∀ a, readOne? ("set" ++ c.render) a = (Register.read? a).map (set c) := by
    cases c <;> exact fun _ => rfl
  rw [render, read?_line_one (c.isUnbroken_append rfl) r.isUnbroken_render, hread, r.read?_render]
  rfl

theorem read?_jcc (c : Condition) {target : String} (h : Text.isName target = true) :
    read? (jcc c target).render = some (jcc c target) := by
  have hread : ∀ a, readOne? ("j" ++ c.render) a = some (jcc c a) := by
    cases c <;> exact fun _ => rfl
  rw [render, read?_line_one (c.isUnbroken_append rfl) (Text.isUnbroken_name h), hread]

/-- An instruction that names a symbol. -/
theorem read?_symbol {make : String → Instruction} {target : String} (hm : Text.isUnbroken mnemonic = true)
    (h : ∀ a, readOne? mnemonic a = some (make a)) (htarget : Text.isName target = true) :
    read? (line mnemonic [target]) = some (make target) := by
  rw [read?_line_one hm (Text.isUnbroken_name htarget), h]

theorem isUnbroken_vector (vector : UInt8) : Text.isUnbroken ("$0x" ++ Text.hex vector.toNat) = true := by
  rw [Text.isUnbroken_append, Text.isUnbroken_hex]
  rfl

theorem read?_int (vector : UInt8) : read? (int vector).render = some (int vector) := by
  have hread : ∀ digits, readOne? "int" ("$0x" ++ digits) =
      some (int (UInt8.ofNat (Text.ofHex digits.toList))) := by
    intro digits
    have hdigits : ("$0x" ++ digits).toList.drop 3 = digits.toList := by
      rw [String.toList_append]
      rfl
    exact congrArg (fun cs => some (int (UInt8.ofNat (Text.ofHex cs)))) hdigits
  rw [render, read?_line_one rfl (isUnbroken_vector vector), hread, Text.hex, String.toList_ofList,
    Text.ofHex_toDigits _ vector.toNat_lt, UInt8.ofNat_toNat]

theorem read?_label {name : String} (h : Text.isName name = true) :
    read? (label name).render = some (label name) := by
  have htext : (label name).render.toList = name.toList ++ [':'] := String.toList_append
  have hstart : ∀ {c cs}, (label name).render.toList = c :: cs → Text.isWordPart c = true ∨ c = ':' := by
    intro c cs hcs
    have hmem : c ∈ name.toList ++ [':'] := htext ▸ hcs ▸ List.mem_cons_self
    rcases List.mem_append.1 hmem with hc | hc
    · exact .inl (Text.isWordPart_of_isName h c hc)
    · exact .inr (List.mem_singleton.1 hc)
  unfold read?
  split
  · next hcs => exact absurd (htext.symm.trans hcs) (by simp)
  · next hcs => exact absurd (hstart hcs) (by decide)
  · next hcs => exact absurd (hstart hcs) (by decide)
  · next hcs => exact absurd (hstart hcs) (by decide)
  · rw [htext, List.dropLast_concat, String.ofList_toList]

theorem read?_comment (text : String) : read? (comment text).render = some (comment text) := by
  have htext : (comment text).render.toList = '#' :: ' ' :: text.toList := String.toList_append
  rw [read?, htext]
  exact congrArg (some ∘ comment) String.ofList_toList

theorem read?_directive {text : String} (h : text.toList.head? = some '.') :
    read? (directive text).render = some (directive text) := by
  obtain ⟨cs, hcs⟩ := List.head?_eq_some_iff.1 h
  rw [read?, render, hcs]
  rfl

theorem read?_render {i : Instruction} (h : i.isLegible = true) : read? i.render = some i.spelled := by
  cases i with
  | movl src dst | addl src dst | subl src dst | andl src dst | orl src dst | xorl src dst
  | cmpl src dst => exact read?_binary rfl rfl h
  | pushl op | idivl op | negl op | incl op | decl op | notl op => exact read?_unary rfl rfl h
  | popl r => exact read?_popl r
  | imull src dst => exact read?_imull dst h
  | sall count dst | sarl count dst => exact read?_shift rfl (fun _ _ => rfl) h
  | set c r => exact read?_set c r
  | jmp target | call target => exact read?_symbol rfl (fun _ => rfl) h
  | jcc c target => exact read?_jcc c h
  | int vector => exact read?_int vector
  | label name => exact read?_label h
  | comment text => exact read?_comment text
  | directive text => exact read?_directive (beq_iff_eq.1 (Bool.and_eq_true_iff.1 h).1)
  | cdq | ret => exact read?_line_nil rfl
  | blank => rfl

theorem notMem_intercalate {c : Char} {sep : List Char} {ls : List (List Char)} (hsep : c ∉ sep)
    (h : ∀ l ∈ ls, c ∉ l) : c ∉ sep.intercalate ls := by
  induction ls with
  | nil => exact List.not_mem_nil
  | cons l ls ih =>
    obtain ⟨hl, hls⟩ := List.forall_mem_cons.1 h
    cases ls with
    | nil => rwa [List.intercalate_singleton]
    | cons l' ls =>
      rw [List.intercalate_cons_cons, List.mem_append, List.mem_append]
      exact not_or.2 ⟨not_or.2 ⟨hl, hsep⟩, ih hls⟩

/-- Legible instructions that are written alike are alike but for the spelling of values. -/
theorem render_eq_iff {i j : Instruction} (hi : i.isLegible = true) (hj : j.isLegible = true) :
    i.render = j.render ↔ i.spelled = j.spelled := by
  constructor
  · intro h
    have hread := congrArg read? h
    rw [read?_render hi, read?_render hj] at hread
    exact Option.some.inj hread
  · intro h
    rw [← i.render_spelled, h, j.render_spelled]

theorem newline_notMem_line {operands : List String} (hm : Text.isUnbroken mnemonic = true)
    (h : ∀ op ∈ operands, Text.isUnbroken op = true) : '\n' ∉ (line mnemonic operands).toList := by
  have hfront : '\n' ∉ ("    " ++ mnemonic).toList := by
    rw [String.toList_append, List.mem_append]
    exact not_or.2 ⟨by decide, Text.newline_notMem hm⟩
  unfold line
  split
  · exact hfront
  · rw [String.toList_append, String.toList_append, List.mem_append, List.mem_append,
      String.toList_intercalate]
    refine not_or.2 ⟨not_or.2 ⟨hfront, by decide⟩, notMem_intercalate (by decide) ?_⟩
    simp only [List.mem_map, forall_exists_index, and_imp, forall_apply_eq_imp_iff₂]
    exact fun op hop => Text.newline_notMem (h op hop)

theorem newline_notMem_render {i : Instruction} (h : i.isLegible = true) : '\n' ∉ i.render.toList := by
  have htwo {a b : String} (ha : Text.isUnbroken a = true) (hb : Text.isUnbroken b = true) :
      ∀ op ∈ [a, b], Text.isUnbroken op = true :=
    List.forall_mem_cons.2 ⟨ha, List.forall_mem_singleton.2 hb⟩
  cases i with
  | movl src dst | addl src dst | subl src dst | andl src dst | orl src dst | xorl src dst
  | cmpl src dst =>
    obtain ⟨hsrc, hdst⟩ := Bool.and_eq_true_iff.1 h
    exact newline_notMem_line rfl (htwo (Operand.isUnbroken_render hsrc) (Operand.isUnbroken_render hdst))
  | pushl op | idivl op | negl op | incl op | decl op | notl op =>
    exact newline_notMem_line rfl (List.forall_mem_singleton.2 (Operand.isUnbroken_render h))
  | popl r => exact newline_notMem_line rfl (List.forall_mem_singleton.2 r.isUnbroken_render)
  | imull src dst =>
    exact newline_notMem_line rfl (htwo (Operand.isUnbroken_render h) dst.isUnbroken_render)
  | sall count dst | sarl count dst =>
    exact newline_notMem_line rfl (htwo count.isUnbroken_render (Operand.isUnbroken_render h))
  | set c r =>
    exact newline_notMem_line (c.isUnbroken_append rfl) (List.forall_mem_singleton.2 r.isUnbroken_render)
  | jmp target | call target =>
    exact newline_notMem_line rfl (List.forall_mem_singleton.2 (Text.isUnbroken_name h))
  | jcc c target =>
    exact newline_notMem_line (c.isUnbroken_append rfl)
      (List.forall_mem_singleton.2 (Text.isUnbroken_name h))
  | int vector => exact newline_notMem_line rfl (List.forall_mem_singleton.2 (isUnbroken_vector vector))
  | label name =>
    rw [render, String.toList_append, List.mem_append]
    exact not_or.2 ⟨Text.newline_notMem_name h, by decide⟩
  | comment text =>
    rw [render, String.toList_append, List.mem_append]
    exact not_or.2 ⟨by decide, of_decide_eq_true h⟩
  | directive text => exact of_decide_eq_true (Bool.and_eq_true_iff.1 h).2
  | cdq | ret => exact newline_notMem_line rfl fun _ hop => nomatch hop
  | blank => exact List.not_mem_nil

variable {code block : List Instruction}

/-- Cut at its newlines, the text of a program falls into one line for each instruction, and nothing stands
behind the last newline. -/
theorem splitOn_renderAll (h : ∀ i ∈ code, i.isLegible = true) :
    (renderAll code).toList.splitOn '\n' = code.map (·.render.toList) ++ [[]] := by
  induction code with
  | nil => rfl
  | cons i code ih =>
    obtain ⟨hi, hcode⟩ := List.forall_mem_cons.1 h
    have htext : (renderAll (i :: code)).toList = i.render.toList ++ '\n' :: (renderAll code).toList := by
      simp [renderAll]
    rw [htext, List.splitOn_append_cons_self_of_not_mem (newline_notMem_render hi), ih hcode]
    rfl

/-- Line for line, the instructions are read off the text. -/
theorem map_read?_lines (h : ∀ i ∈ code, i.isLegible = true) :
    (code.map (·.render.toList)).map (fun cs => read? (String.ofList cs)) = (code.map spelled).map some := by
  rw [List.map_map, List.map_map]
  refine List.map_congr_left fun i hi => ?_
  rw [Function.comp_apply, Function.comp_apply, String.ofList_toList, read?_render (h i hi)]

/-- Values and the numbers they are spelled as are written alike. -/
theorem renderAll_spelled (code : List Instruction) : renderAll (code.map spelled) = renderAll code := by
  unfold renderAll
  rw [List.map_map]
  simp only [Function.comp_def, render_spelled]

/-- Two programs have the same lines just if they are alike but for the spelling of values. -/
theorem lines_eq_iff (h : ∀ i ∈ code, i.isLegible = true) (h' : ∀ i ∈ block, i.isLegible = true) :
    (renderAll code).toList.splitOn '\n' = (renderAll block).toList.splitOn '\n' ↔
      code.map spelled = block.map spelled := by
  constructor
  · intro hlines
    rw [splitOn_renderAll h, splitOn_renderAll h'] at hlines
    have hread := congrArg (List.map fun cs => read? (String.ofList cs)) (List.append_cancel_right hlines)
    rw [map_read?_lines h, map_read?_lines h'] at hread
    exact List.map_injective_iff.2 (Option.some_injective _) hread
  · intro hspelled
    rw [← renderAll_spelled code, hspelled, renderAll_spelled block]

end Instruction

end Assembly

end SmallC
