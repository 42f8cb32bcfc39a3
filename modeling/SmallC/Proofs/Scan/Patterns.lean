import Mathlib
import SmallC.Token.Scan

/-!
# The patterns of the language

What can stand in a text is said by patterns, as regular expressions over characters: three kinds of text
that are skipped, and one pattern for each kind of token. A pattern is the language of the texts it matches,
so what it matches can be said without a way to find it. For most patterns this is plain. A block comment is
matched exactly if it ends with the first `*/` that stands behind its `/*`.
-/
namespace SmallC

open scoped Computability

namespace Pattern

/-- One character with the property. -/
def one (P : Char → Prop) : Language Char :=
  {w | ∃ c, P c ∧ w = [c]}

def oneOf (s : String) : Language Char :=
  one (· ∈ s.toList)

def noneOf (s : String) : Language Char :=
  one (· ∉ s.toList)

/-- One character of a range, its ends included. -/
def between (low high : Char) : Language Char :=
  one fun c => low ≤ c ∧ c ≤ high

def literal (s : String) : Language Char :=
  {s.toList}

def oneOrMore (l : Language Char) : Language Char :=
  l * l∗

def letter : Language Char :=
  between 'a' 'z' + between 'A' 'Z'

def digit : Language Char :=
  between '0' '9'

/-- Anything but a star, and then stars. -/
def upToStars : Language Char :=
  (noneOf "*")∗ * oneOrMore (oneOf "*")

end Pattern

open Pattern

/-- What a token of the kind looks like. -/
def Kind.pattern : Kind → Language Char
  | intKeyword => literal "int"
  | returnKeyword => literal "return"
  | identifier => (letter + oneOf "_") * (letter + digit + oneOf "_")∗
  | number => oneOrMore digit
  | punct p => literal p.spelling
  | endOfFile | invalid => 0

/-- What can be matched: what is skipped, and the tokens. -/
inductive Rule where
  | space
  | lineComment
  | blockComment
  | token (kind : Kind)

def Rule.pattern : Rule → Language Char
  | space => oneOrMore (oneOf " \t\n\r\x0c\x0b")
  | lineComment => literal "//" * (noneOf "\n")∗
  | blockComment => literal "/*" * upToStars * (noneOf "/*" * upToStars)∗ * literal "/"
  | token kind => kind.pattern

namespace Pattern

variable {P Q : Char → Prop} {c : Char} {w : List Char} {l : Language Char}

theorem one_add_one (P Q : Char → Prop) : one P + one Q = one fun c => P c ∨ Q c := by
  ext w
  rw [Language.mem_add]
  constructor
  · rintro (⟨c, hc, rfl⟩ | ⟨c, hc, rfl⟩)
    · exact ⟨c, .inl hc, rfl⟩
    · exact ⟨c, .inr hc, rfl⟩
  · rintro ⟨c, hc | hc, rfl⟩
    · exact .inl ⟨c, hc, rfl⟩
    · exact .inr ⟨c, hc, rfl⟩

theorem nil_notMem_one_mul : [] ∉ one P * l := by
  rintro ⟨_, ⟨c, -, rfl⟩, b, -, h⟩
  cases h

theorem cons_mem_one_mul : c :: w ∈ one P * l ↔ P c ∧ w ∈ l := by
  constructor
  · rintro ⟨_, ⟨d, hd, rfl⟩, b, hb, h⟩
    obtain ⟨rfl, rfl⟩ := List.cons.inj h
    exact ⟨hd, hb⟩
  · rintro ⟨hc, hw⟩
    exact ⟨[c], ⟨c, hc, rfl⟩, w, hw, rfl⟩

theorem mem_one_kstar : w ∈ (one P)∗ ↔ ∀ c ∈ w, P c := by
  rw [← Language.one_add_self_mul_kstar_eq_kstar, Language.mem_add, Language.mem_one]
  induction w with
  | nil => simp
  | cons c w ih =>
    rw [cons_mem_one_mul, List.forall_mem_cons, or_iff_right (List.cons_ne_nil c w),
      ← Language.one_add_self_mul_kstar_eq_kstar, Language.mem_add, Language.mem_one, ih]

theorem mem_one_mul_kstar : w ∈ one P * (one Q)∗ ↔ ∃ c cs, w = c :: cs ∧ P c ∧ ∀ d ∈ cs, Q d := by
  cases w with
  | nil => exact iff_of_false nil_notMem_one_mul fun ⟨_, _, h, _⟩ => nomatch h
  | cons c w => simp [cons_mem_one_mul, mem_one_kstar]

theorem mem_oneOrMore_one : w ∈ oneOrMore (one P) ↔ ∃ c cs, w = c :: cs ∧ ∀ d ∈ c :: cs, P d := by
  simp only [oneOrMore, mem_one_mul_kstar, List.forall_mem_cons]

theorem mem_literal_mul {s : String} : w ∈ literal s * l ↔ ∃ v ∈ l, w = s.toList ++ v := by
  constructor
  · rintro ⟨_, rfl, v, hv, rfl⟩
    exact ⟨v, hv, rfl⟩
  · rintro ⟨v, hv, rfl⟩
    exact ⟨_, rfl, v, hv, rfl⟩

theorem mem_mul_literal {s : String} : w ∈ l * literal s ↔ ∃ v ∈ l, w = v ++ s.toList := by
  constructor
  · rintro ⟨v, hv, _, rfl, rfl⟩
    exact ⟨v, hv, rfl⟩
  · rintro ⟨v, hv, rfl⟩
    exact ⟨v, hv, _, rfl, rfl⟩

/-- No `*/` stands in the text. -/
def Unended (w : List Char) : Prop :=
  ¬ ['*', '/'] <:+: w

theorem unended_nil : Unended [] := by
  intro h
  cases List.eq_nil_of_infix_nil h

theorem unended_cons : Unended (c :: w) ↔ ¬ (c = '*' ∧ w.head? = some '/') ∧ Unended w := by
  have hfront : ['*', '/'] <+: c :: w ↔ c = '*' ∧ w.head? = some '/' := by
    cases w with
    | nil => simp
    | cons d w => simp [eq_comm]
  rw [Unended, List.infix_cons_iff, not_or, hfront, Unended]

/-- Between `/*` and the last slash of a comment. -/
def inComment : Language Char :=
  upToStars * (noneOf "/*" * upToStars)∗

/-- The same behind a star. -/
def behindStar : Language Char :=
  (oneOf "*")∗ * (noneOf "/*" * upToStars)∗

theorem inComment_eq : inComment = oneOf "*" * behindStar + noneOf "*" * inComment := by
  have hopen : inComment = (noneOf "*")∗ * (oneOf "*" * behindStar) := by
    simp only [inComment, behindStar, upToStars, oneOrMore, mul_assoc]
  conv_lhs => rw [hopen, ← Language.one_add_self_mul_kstar_eq_kstar]
  rw [add_mul, one_mul, mul_assoc, ← hopen]

theorem behindStar_eq : behindStar = oneOf "*" * behindStar + (1 + noneOf "/*" * inComment) := by
  have hmore : (noneOf "/*" * upToStars)∗ = 1 + noneOf "/*" * inComment := by
    conv_lhs => rw [← Language.one_add_self_mul_kstar_eq_kstar]
    rw [mul_assoc, ← inComment]
  conv_lhs => rw [behindStar, ← Language.one_add_self_mul_kstar_eq_kstar]
  rw [add_mul, one_mul, mul_assoc, ← behindStar, hmore, add_comm]

theorem nil_notMem_inComment : [] ∉ inComment := by
  rw [inComment_eq, Language.mem_add]
  exact not_or.2 ⟨nil_notMem_one_mul, nil_notMem_one_mul⟩

theorem cons_mem_inComment :
    c :: w ∈ inComment ↔ if c = '*' then w ∈ behindStar else w ∈ inComment := by
  conv_lhs => rw [inComment_eq, Language.mem_add]
  simp only [oneOf, noneOf, cons_mem_one_mul]
  by_cases hc : c = '*' <;> simp [hc]

theorem nil_mem_behindStar : [] ∈ behindStar := by
  rw [behindStar_eq, Language.mem_add, Language.mem_add]
  exact .inr (.inl Language.nil_mem_one)

theorem cons_mem_behindStar :
    c :: w ∈ behindStar ↔ if c = '*' then w ∈ behindStar else c ≠ '/' ∧ w ∈ inComment := by
  have hone : c :: w ∉ (1 : Language Char) := List.cons_ne_nil c w
  conv_lhs => rw [behindStar_eq, Language.mem_add, Language.mem_add, or_iff_right hone]
  simp only [oneOf, noneOf, cons_mem_one_mul]
  by_cases hc : c = '*' <;> simp [hc]

/-- What stands between `/*` and the last slash ends in a star and holds no `*/`. -/
theorem mem_inComment_iff (w : List Char) :
    (w ∈ inComment ↔ w.getLast? = some '*' ∧ Unended w) ∧
      (w ∈ behindStar ↔ (w = [] ∨ w.getLast? = some '*') ∧ w.head? ≠ some '/' ∧ Unended w) := by
  induction w with
  | nil => simp [nil_notMem_inComment, nil_mem_behindStar, unended_nil]
  | cons c w ih =>
    obtain ⟨hopen, hstar⟩ := ih
    rw [cons_mem_inComment, cons_mem_behindStar, unended_cons, hopen, hstar, List.getLast?_cons]
    by_cases hc : c = '*'
    · subst hc
      cases w with
      | nil => simp
      | cons d w => simp [List.getLast?_cons]
    · cases w with
      | nil => simp [hc]
      | cons d w => simp [hc, List.getLast?_cons, and_left_comm]

end Pattern

/-- A block comment ends with the first `*/` that stands behind its `/*`. -/
theorem Rule.mem_blockComment {w : List Char} :
    w ∈ blockComment.pattern ↔
      ∃ body, w = '/' :: '*' :: (body ++ ['*', '/']) ∧ ¬ ['*', '/'] <:+: body ++ ['*'] := by
  have hpattern : blockComment.pattern = literal "/*" * (inComment * literal "/") := by
    simp only [pattern, inComment, mul_assoc]
  rw [hpattern, mem_literal_mul]
  simp only [mem_mul_literal, (mem_inComment_iff _).1]
  constructor
  · rintro ⟨_, ⟨v, ⟨hlast, hv⟩, rfl⟩, rfl⟩
    obtain ⟨body, rfl⟩ := List.getLast?_eq_some_iff.1 hlast
    exact ⟨body, by simp, hv⟩
  · rintro ⟨body, rfl, hbody⟩
    exact ⟨_, ⟨body ++ ['*'], ⟨List.getLast?_concat, hbody⟩, rfl⟩, by simp⟩

theorem Rule.mem_lineComment {w : List Char} :
    w ∈ lineComment.pattern ↔ ∃ body, w = '/' :: '/' :: body ∧ '\n' ∉ body := by
  have hbody (body : List Char) : (∀ c ∈ body, c ∉ "\n".toList) ↔ '\n' ∉ body := by
    simp [List.forall_mem_ne']
  rw [pattern, mem_literal_mul]
  simp only [noneOf, mem_one_kstar, hbody]
  exact exists_congr fun body => and_comm

theorem Rule.mem_space {w : List Char} :
    w ∈ space.pattern ↔ ∃ c cs, w = c :: cs ∧ ∀ d ∈ c :: cs, Text.isSpace d = true := by
  have hspace (c : Char) : c ∈ " \t\n\r\x0c\x0b".toList ↔ Text.isSpace c = true := by
    have hlisted : " \t\n\r\x0c\x0b".toList = [' ', '\t', '\n', '\r', '\x0c', '\x0b'] := rfl
    simp only [hlisted, Text.isSpace, Text.isInlineBlank, Bool.or_eq_true, beq_iff_eq, List.mem_cons,
      List.not_mem_nil, or_false]
    tauto
  simp only [pattern, oneOf, mem_oneOrMore_one, hspace]

theorem Pattern.isLetter_iff {c : Char} :
    c.isAlpha = true ↔ ('a' ≤ c ∧ c ≤ 'z') ∨ 'A' ≤ c ∧ c ≤ 'Z' := by
  simp [Char.isAlpha, Char.isUpper, Char.isLower, Char.le_def, or_comm]

theorem Pattern.isDigit_iff {c : Char} : c.isDigit = true ↔ '0' ≤ c ∧ c ≤ '9' := by
  simp [Char.isDigit, Char.le_def]

theorem Kind.mem_identifier {w : List Char} :
    w ∈ identifier.pattern ↔
      ∃ c cs, w = c :: cs ∧ Text.isWordStart c = true ∧ ∀ d ∈ cs, Text.isWordPart d = true := by
  have hstart (c : Char) : (('a' ≤ c ∧ c ≤ 'z') ∨ 'A' ≤ c ∧ c ≤ 'Z') ∨ c ∈ "_".toList ↔
      Text.isWordStart c = true := by
    rw [← isLetter_iff]
    simp [Text.isWordStart]
  have hpart (c : Char) : ((('a' ≤ c ∧ c ≤ 'z') ∨ 'A' ≤ c ∧ c ≤ 'Z') ∨ '0' ≤ c ∧ c ≤ '9') ∨
      c ∈ "_".toList ↔ Text.isWordPart c = true := by
    rw [← isLetter_iff, ← isDigit_iff]
    simp [Text.isWordPart, Char.isAlphanum]
  simp only [pattern, letter, digit, between, oneOf, one_add_one, mem_one_mul_kstar, hstart, hpart]

theorem Kind.mem_number {w : List Char} :
    w ∈ number.pattern ↔ ∃ c cs, w = c :: cs ∧ ∀ d ∈ c :: cs, d.isDigit = true := by
  simp only [pattern, digit, between, mem_oneOrMore_one, isDigit_iff]

end SmallC
