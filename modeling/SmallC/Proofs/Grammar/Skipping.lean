import Mathlib
import SmallC.Proofs.Grammar.Repairs

/-!
# Where recovery from a broken function stops

A broken function is skipped up to the next `int` outside braces. The braces are counted from its first token on,
with one exception: where a function is broken at its very first token this one is skipped before the count
starts. If it is an opening brace, what it encloses counts as outside, and an `int` in it is taken for the start
of a function.
-/
namespace SmallC.Grammar

open Reader Outcome

theorem nest_mono {d e : Nat} (h : d ≤ e) (k : Kind) : nest d k ≤ nest e k := by
  unfold nest
  split
  · omega
  · split <;> omega

theorem nest_zero {k : Kind} (h : k ≠ .punct .openBrace) : nest 0 k = 0 := by
  simp [nest, h]

theorem depthAfter_mono {d e : Nat} (h : d ≤ e) (ts : List Token) : depthAfter d ts ≤ depthAfter e ts := by
  induction ts generalizing d e with
  | nil => exact h
  | cons t ts ih => exact ih (nest_mono h t.kind)

/-- But for the first token, every `int` stands inside braces; these are counted without the first `origin`
tokens. -/
def Enclosed (origin : Nat) (ts : List Token) : Prop :=
  ∀ before t after, ts = before ++ t :: after → before ≠ [] → t.kind = .intKeyword →
    depthAfter 0 (before.drop origin) ≠ 0

theorem enclosed_of_tail {origin : Nat} {ts : List Token} (h : ∀ t ∈ ts.tail, t.kind ≠ .intKeyword) :
    Enclosed origin ts := by
  intro before t after hts hne ht
  obtain ⟨u, us, rfl⟩ := List.exists_cons_of_ne_nil hne
  subst hts
  exact absurd ht (h t (by simp))

/-- Behind a header, the opening brace of the body encloses everything that does not close it. -/
theorem enclosed_body {ts us : List Token} {o : Token} (hplain : ∀ t ∈ ts, Plain t.kind)
    (htail : ∀ t ∈ ts.tail, t.kind ≠ .intKeyword) (ho : o.kind = .punct .openBrace) (hkept : Kept us) :
    Enclosed 0 (ts ++ o :: us) := by
  intro before t after hsplit hne ht
  rcases List.append_eq_append_iff.1 hsplit with ⟨vs, rfl, hvs⟩ | ⟨vs, rfl, hvs⟩
  · cases vs with
    | nil =>
      obtain ⟨rfl, -⟩ := List.cons.inj hvs
      rw [ho] at ht
      cases ht
    | cons v vs =>
      obtain ⟨rfl, rfl⟩ := List.cons.inj hvs
      have hopen := hkept.open ho (List.prefix_append vs (t :: after)) 0
      rw [List.drop_zero, depthAfter_append, depthAfter_plain hplain]
      omega
  · cases vs with
    | nil =>
      obtain ⟨rfl, -⟩ := List.cons.inj hvs
      rw [ho] at ht
      cases ht
    | cons v vs =>
      obtain ⟨rfl, -⟩ := List.cons.inj hvs
      exact enclosed_of_tail htail before t vs rfl hne ht

/-- The tokens run to the next `int` outside braces, or to the end of the stream. The first token is not asked
for, and the braces are counted without the first `origin` tokens. -/
structure SkipsToNext (origin : Nat) (skipped : List Token) (after : Reader) : Prop where
  nonempty : skipped ≠ []
  stops : after.rest = [] ∨ after.kind = .intKeyword ∧ depthAfter 0 (skipped.drop origin) = 0
  enclosed : Enclosed origin skipped

/-- Skipping goes on behind tokens that leave no brace open. -/
theorem skipsToNext_append {origin : Nat} {ts us : List Token} {after : Reader} (hne : ts ≠ [])
    (hlength : origin ≤ ts.length) (henclosed : Enclosed origin ts)
    (hclosed : depthAfter 0 (ts.drop origin) = 0)
    (hstop : after.rest = [] ∨ after.kind = .intKeyword ∧ depthAfter 0 us = 0)
    (hbefore : ∀ before t behind, us = before ++ t :: behind → t.kind = .intKeyword →
      depthAfter 0 before ≠ 0) : SkipsToNext origin (ts ++ us) after where
  nonempty := by simp [hne]
  stops := by rwa [List.drop_append_of_le_length hlength, depthAfter_append, hclosed]
  enclosed := by
    intro before t behind hsplit hbne ht
    rcases List.append_eq_append_iff.1 hsplit with ⟨vs, rfl, hvs⟩ | ⟨vs, rfl, hvs⟩
    · rw [List.drop_append_of_le_length hlength, depthAfter_append, hclosed]
      exact hbefore vs t behind hvs ht
    · cases vs with
      | nil => exact absurd rfl (hbefore [] t behind hvs.symm ht)
      | cons v vs =>
        obtain ⟨rfl, -⟩ := List.cons.inj hvs
        exact henclosed before t vs rfl hbne ht

/-- Behind an uncounted opening brace, skipping stops where it should if the count was right in the end. -/
theorem skipsToNext_zero_iff {o : Token} {ts : List Token} {after : Reader}
    (h : SkipsToNext 1 (o :: ts) after) :
    SkipsToNext 0 (o :: ts) after ↔ after.rest = [] ∨ depthAfter 0 (o :: ts) = 0 := by
  constructor
  · exact fun hzero => hzero.stops.imp id And.right
  · intro hright
    refine ⟨h.nonempty, ?_, fun before t behind hsplit hne ht => ?_⟩
    · rcases h.stops with hend | ⟨hint, -⟩
      · exact .inl hend
      · exact hright.imp id fun hclosed => ⟨hint, hclosed⟩
    · have hinside := h.enclosed before t behind hsplit hne ht
      obtain ⟨u, us, rfl⟩ := List.exists_cons_of_ne_nil hne
      have hmore := depthAfter_mono (Nat.zero_le (nest 0 u.kind)) us
      rw [List.drop_one, List.tail_cons] at hinside
      rw [List.drop_zero, depthAfter_cons]
      omega

section Functions

variable {r start broken : Reader}

theorem function_of_not_int (h : r.kind ≠ .intKeyword) :
    (function r).result = (none, r.note .typeName) :=
  result_andThen_none (result_map_none (expect_of_kind_ne h _) _)

/-- What is consumed of a broken function has no `int` outside braces but its first token. No brace is among it,
or it is all there was. -/
theorem function_broken (hc : r.Clean) (h : (function r).value = none) :
    ∃ ts n, Passes r ts n (function r).next ∧ Enclosed 0 ts ∧
      ((function r).next.rest = [] ∨ ∀ t ∈ ts, Plain t.kind) := by
  obtain ⟨ts, hts, hplain, htail⟩ := passes_header hc
  cases hv : (header r).value with
  | none =>
    rw [(Prod.mk.inj ((withBlock_function r).broken hv)).2]
    exact ⟨ts, 0, hts, enclosed_of_tail htail, .inr hplain⟩
  | some t =>
    obtain ⟨hvalue, hnext⟩ := (withBlock_function r).value (by rw [hv]; rfl)
    have hnone : (block (header r).next).value = none := by
      rw [h] at hvalue
      exact Option.not_isSome_iff_eq_none.1 (by simp [← hvalue])
    rw [hnext]
    rcases block_broken (hc.passes hts) hnone with hstart | ⟨o, us, n, ho, hkept, hus, hend⟩
    · refine ⟨ts, 0, ?_, enclosed_of_tail htail, .inr hplain⟩
      have hall := hts.trans hstart
      rwa [List.append_nil] at hall
    · exact ⟨ts ++ o :: us, _, hts.trans hus, enclosed_body hplain htail ho hkept, .inl hend⟩

/-- A function broken at an opening brace is skipped without it. -/
theorem skips_behind_brace (hc : start.Clean) (h : Repair.Genuine (.function start broken))
    (hbrace : start.kind = .punct .openBrace) :
    ∃ ts, start.rest = start.lookahead :: ts ++ (broken.recoverDeclaration start).rest ∧
      SkipsToNext 1 (start.lookahead :: ts) (broken.recoverDeclaration start) := by
  obtain ⟨hmore, -, rfl⟩ := h
  have hnext : (function start).next = start.note .typeName :=
    (Prod.mk.inj (function_of_not_int (by simp [hbrace]))).2
  rw [hnext]
  have hnote := passes_note start .typeName
  obtain ⟨us, vs, hskip, hus, hstop, hbefore⟩ :=
    passes_recoverDeclaration (hc.passes hnote) hnote (rest_ne_nil_of_atEnd hmore)
  rw [if_pos rfl] at hus
  subst hus
  have hfirst : Enclosed 1 [start.lookahead] := enclosed_of_tail (by simp)
  refine ⟨vs, (hnote.trans hskip).rest, ?_⟩
  exact skipsToNext_append (List.cons_ne_nil _ _) (Nat.le_refl 1) hfirst rfl hstop hbefore

/-- Any other is skipped with its first token counted. -/
theorem skips_from_start (hc : start.Clean) (h : Repair.Genuine (.function start broken))
    (hbrace : start.kind ≠ .punct .openBrace) :
    ∃ skipped, start.rest = skipped ++ (broken.recoverDeclaration start).rest ∧
      SkipsToNext 0 skipped (broken.recoverDeclaration start) := by
  obtain ⟨hmore, hnone, rfl⟩ := h
  have more := rest_ne_nil_of_atEnd hmore
  obtain ⟨ts, n, hts, henclosed, hread⟩ := function_broken hc hnone
  obtain ⟨us, vs, hskip, hus, hstop, hbefore⟩ := passes_recoverDeclaration (hc.passes hts) hts more
  refine ⟨ts ++ us ++ vs, ?_, ?_⟩
  · rw [List.append_assoc ts]
    exact (hts.trans hskip).rest
  by_cases hnil : ts = []
  · -- broken at its first token, which is none that is counted
    rw [if_pos hnil] at hus
    subst hnil hus
    refine skipsToNext_append (by simp) (Nat.zero_le _) (enclosed_of_tail (by simp)) ?_ hstop hbefore
    exact nest_zero hbrace
  · rw [if_neg hnil] at hus
    subst hus
    rw [List.append_nil]
    rcases hread with hend | hplain
    · have hrest := hskip.rest
      rw [hend] at hrest
      obtain ⟨hvs, hafter⟩ := List.append_eq_nil_iff.1 hrest.symm
      obtain rfl : vs = [] := hvs
      rw [List.append_nil]
      exact ⟨hnil, .inl hafter, henclosed⟩
    · exact skipsToNext_append hnil (Nat.zero_le _) henclosed (depthAfter_plain hplain 0) hstop hbefore

end Functions

/-- On a stream without invalid tokens, what is skipped of a broken function runs to the next `int` outside
braces. An opening brace that it starts with is not counted; then the `int` is outside the braces only if none is
open there with that one counted too. -/
theorem broken_function_skips_to_next (S : TokenStream)
    (h : ∀ t ∈ S.tokens, t.kind ≠ .invalid ∧ t.kind ≠ .endOfFile) :
    (parse S).recoveries = (repairs S).length ∧
    ∀ start broken, .function start broken ∈ repairs S →
      let after := broken.recoverDeclaration start
      ((function start).value = none ∧ (function start).next = broken) ∧
      ∃ past skipped, S.tokens = past ++ start.rest ∧ start.rest = skipped ++ after.rest ∧
        SkipsToNext (if start.kind = .punct .openBrace then 1 else 0) skipped after ∧
        (SkipsToNext 0 skipped after ↔
          (start.kind = .punct .openBrace → after.rest = [] ∨ depthAfter 0 skipped = 0)) := by
  refine ⟨recoveries_parse h, fun start broken hp => ?_⟩
  intro after
  obtain ⟨hgenuine, hc, past, hpast, -⟩ := repairs_genuine h hp
  dsimp only [Repair.start] at hc hpast
  refine ⟨hgenuine.2, past, ?_⟩
  by_cases hbrace : start.kind = .punct .openBrace
  · obtain ⟨ts, hrest, hskips⟩ := skips_behind_brace hc hgenuine hbrace
    rw [if_pos hbrace]
    refine ⟨_, hpast, hrest, hskips, ?_⟩
    exact (skipsToNext_zero_iff hskips).trans ⟨fun hright _ => hright, fun hright => hright hbrace⟩
  · obtain ⟨skipped, hrest, hskips⟩ := skips_from_start hc hgenuine hbrace
    rw [if_neg hbrace]
    exact ⟨skipped, hpast, hrest, hskips, iff_of_true hskips fun hopen => absurd hopen hbrace⟩

/-- The tokens of `{ int x; }`. -/
def strayBrace : TokenStream :=
  let place (n : Nat) : Position := ⟨0, 0, ⟨n, n + 1⟩⟩
  let word (n : Nat) (kind : Kind) (text : String) : Token := ⟨kind, text, place n⟩
  let sign (n : Nat) (p : Punctuator) : Token := ⟨.punct p, p.spelling, place n⟩
  ⟨[sign 0 .openBrace, word 2 .intKeyword "int", word 6 .identifier "x", sign 7 .semicolon,
    sign 9 .closeBrace], place 10⟩

theorem repairs_strayBrace :
    (repairs strayBrace).head? = some (.function (start strayBrace) ((start strayBrace).note .typeName)) := by
  cbv

theorem recover_brace :
    (((start strayBrace).note .typeName).recoverDeclaration (start strayBrace)).rest =
      strayBrace.tokens.drop 1 := by
  cbv

/-- The reader stops before the `int` that the brace encloses. -/
theorem strayBrace_skips_only_brace :
    (parse strayBrace).recoveries = 2 ∧
      ∃ skipped, (start strayBrace).rest = skipped ++ strayBrace.tokens.drop 1 ∧
        SkipsToNext 1 skipped
          (((start strayBrace).note .typeName).recoverDeclaration (start strayBrace)) := by
  obtain ⟨hcount, hall⟩ := broken_function_skips_to_next strayBrace (by decide)
  obtain ⟨-, past, skipped, -, hrest, hskips, -⟩ := hall _ _ (List.mem_of_head? repairs_strayBrace)
  rw [if_pos (by rfl)] at hskips
  rw [recover_brace] at hrest
  exact ⟨hcount.trans (by cbv), skipped, hrest, hskips⟩

/-- With the brace counted, that `int` is none to stop at. It is taken for the start of a function, and a second
mistake is reported. -/
theorem strayBrace_not_skipped :
    (∃ start broken, .function start broken ∈ repairs strayBrace ∧
      ∀ skipped, start.rest = skipped ++ (broken.recoverDeclaration start).rest →
        ¬ SkipsToNext 0 skipped (broken.recoverDeclaration start)) ∧
    (parse strayBrace).problems =
      [.syntactic "expected type name" ⟨0, 0, ⟨0, 1⟩⟩,
        .syntactic "expected '(' after function name" ⟨0, 0, ⟨7, 8⟩⟩] := by
  refine ⟨⟨_, _, List.mem_of_head? repairs_strayBrace, fun skipped hrest hskips => ?_⟩, by cbv⟩
  rw [recover_brace] at hrest
  have hfirst : skipped = [(start strayBrace).lookahead] := by
    apply (List.append_left_inj (strayBrace.tokens.drop 1)).1
    rw [← hrest]
    rfl
  rcases hskips.stops with hend | ⟨-, hclosed⟩
  · rw [recover_brace] at hend
    cases hend
  · rw [hfirst] at hclosed
    cases hclosed

end SmallC.Grammar
