import DeskCalculator.Proofs.Canonical.Text
import DeskCalculator.Proofs.Numeral

/-!
# Numbers and constants

A written number stays as it is, a sign behind it becomes a quotient or a call, and the constants
become full names.
-/

namespace DeskCalculator.Canonical

open Character Rule Parenthesis

/-! ## Texts without a match -/

theorem literalBefore?_eq_none {sign : Char} {text : List Char} (h : sign ∉ text) :
    literalBefore? sign text = none := by
  cases hl : literalBefore? sign text with
  | none => rfl
  | some literal =>
      obtain ⟨-, after, rfl⟩ := exists_after_of_literalBefore? hl
      simp at h

theorem signRule_eq_self {sign : Char} {before after : String} {text : List Char} (h : sign ∉ text) :
    (signRule sign before after).apply text = text := by
  have hq : ∀ previous, Quiet (signRule sign before after) previous text [] := by
    induction text with
    | nil => exact fun _ => trivial
    | cons c text ih =>
        refine fun previous => ⟨?_, ih (fun hm => h (by simp [hm])) _⟩
        rw [List.append_nil, signRule, literalBefore?_eq_none h]
        rfl
  exact (hq none).apply

theorem percent_eq_self {text : List Char} (h : '%' ∉ text) : percent.apply text = text :=
  signRule_eq_self h

theorem factorial_eq_self {text : List Char} (h : '!' ∉ text) : factorial.apply text = text :=
  signRule_eq_self h

theorem pi_eq_self {text : List Char} (h : ∀ c ∈ text, isPiLetter c = false ∧ spells 'p' c = false) :
    pi.apply text = text := by
  refine (Quiet.of_forall fun c hc previous after => ?_).apply
  obtain ⟨hl, hp⟩ := h c hc
  cases after <;> simp only [pi, hl, hp, Bool.and_false, Bool.false_and, Bool.false_eq_true, if_false]

theorem functionCall_eq_self {text : List Char} (h : '(' ∉ text) : functionCall.apply text = text := by
  have hq : ∀ previous, Quiet functionCall previous text [] := by
    induction text with
    | nil => exact fun _ => trivial
    | cons c text ih =>
        refine fun previous => ⟨?_, ih (fun hm => h (by simp [hm])) _⟩
        rw [List.append_nil, functionCall]
        cases hc : calledName? functionNames previous (c :: text) with
        | none => rfl
        | some name =>
            obtain ⟨-, n, -, hs, -⟩ := calledName?_eq_some hc
            obtain ⟨word, rest, ht, -⟩ := exists_word_of_startsWithCall hs
            exact absurd (ht ▸ by simp) h
  exact (hq none).apply

theorem euler_quiet {text rest : List Char} {previous : Option Char} (h : 'e' ∉ text) :
    Quiet euler previous text rest := by
  refine .of_forall fun c hc previous after => ?_
  have hne : c ≠ 'e' := by
    rintro rfl
    exact h hc
  simp [euler, hne]

/-- The only letter `e` of a text is the constant where no other part of a word stands beside it. -/
theorem euler_apply_once {text rest : List Char} (ht : 'e' ∉ text) (hr : 'e' ∉ rest) :
    euler.apply (text ++ 'e' :: rest) =
    text ++ (if startsWord text.getLast? && endsWord rest then "math.e".toList else ['e']) ++ rest := by
  have hrest : euler.applyFrom 0 (some 'e') rest = rest := by
    have hq : Quiet euler (some 'e') rest [] := euler_quiet hr
    simpa [Rule.applyFrom] using hq.applyFrom_append
  rw [Rule.apply, (euler_quiet ht).applyFrom_append, Option.or_none, List.append_assoc]
  congr 1
  cases hw : startsWord text.getLast? && endsWord rest with
  | true =>
      have he : euler text.getLast? ('e' :: rest) = some ⟨1, "math.e".toList⟩ := by
        simp [euler, Bool.and_eq_true .. ▸ hw]
      rw [applyFrom_some he, if_pos rfl]
      exact congrArg ("math.e".toList ++ ·) hrest
  | false =>
      have he : euler text.getLast? ('e' :: rest) = none := by
        simp only [euler, Bool.and_assoc]
        simpa using hw
      rw [applyFrom_none he, hrest, if_neg Bool.false_ne_true, List.singleton_append]

/-! ## Characters of numbers -/

/-- No rule looks at the character, but that for the constant `e`. -/
abbrev IsPlain (c : Char) : Prop :=
  asciiSign c = c ∧ powerSign c = [c] ∧ c ≠ '%' ∧ c ≠ '!' ∧ c ≠ '(' ∧ c ≠ ')' ∧ isPiLetter c = false ∧
    spells 'p' c = false

theorem plain_of_numeralSign : ∀ c ∈ numeralSigns, IsPlain c := forall_mem_of_all (by decide)

theorem map_asciiSign_eq_self {word : List Char} (h : ∀ c ∈ word, IsPlain c) :
    word.map asciiSign = word := by
  have := List.map_congr_left fun c hc => (h c hc).1
  rwa [List.map_id'] at this

theorem flatMap_powerSign_eq_self {word : List Char} (h : ∀ c ∈ word, IsPlain c) :
    word.flatMap powerSign = word := by
  induction word with
  | nil => rfl
  | cons c word ih =>
      rw [List.flatMap_cons, (h c (by simp)).2.1, ih fun d hd => h d (by simp [hd])]
      rfl

/-- Of such a text the rules change only what is read as the constant `e`. -/
theorem beforeTrig_of_plain {word written : List Char} (h : ∀ c ∈ word, IsPlain c)
    (he : euler.apply word = written) (hw : ∀ c ∈ written, IsPlain c) : beforeTrig word = written := by
  have hpercent : '%' ∉ word := fun hm => (h '%' hm).2.2.1 rfl
  have hcall : '(' ∉ written := fun hm => (hw '(' hm).2.2.2.2.1 rfl
  have hfactorial : '!' ∉ written := fun hm => (hw '!' hm).2.2.2.1 rfl
  rw [beforeTrig, map_asciiSign_eq_self h, percent_eq_self hpercent,
    pi_eq_self fun c hc => (h c hc).2.2.2.2.2.2, he, flatMap_powerSign_eq_self hw,
    functionCall_eq_self hcall, factorial_eq_self hfactorial]

theorem text_of_plain {mode : AngleMode} {word written : List Char} (h : ∀ c ∈ word, IsPlain c)
    (he : euler.apply word = written) (hw : ∀ c ∈ written, IsPlain c) : text mode word = written := by
  rw [text, beforeTrig_of_plain h he hw]
  exact expandTrig_eq_self fun c hc => ⟨(hw c hc).2.2.2.2.1, (hw c hc).2.2.2.2.2.1⟩

/-! ## Numbers -/

end DeskCalculator.Canonical

namespace DeskCalculator.Numeral

open Canonical Character

/-- The digits and the point before the exponent. -/
def mantissa (n : Numeral) : List Char := n.whole ++ if n.point then '.' :: n.fraction else []

theorem text_eq (n : Numeral) :
    n.text = n.mantissa ++ (n.exponent.map WrittenExponent.text).getD [] := rfl

namespace IsRead

variable {n : Numeral} (h : n.IsRead)
include h

theorem mem_mantissa : ∀ c ∈ n.mantissa, c ∈ asciiDigits ∨ c = '.' := by
  intro c hc
  rcases List.mem_append.mp hc with hw | hf
  · exact .inl (mem_asciiDigits (h.whole c hw))
  · split at hf
    · rcases List.mem_cons.mp hf with rfl | hf
      · exact .inr rfl
      · exact .inl (mem_asciiDigits (h.fraction c hf))
    · cases hf

theorem isPlain : ∀ c ∈ n.text, IsPlain c :=
  fun c hc => plain_of_numeralSign c (h.toIsFormed.numeralSign c hc)

theorem e_not_mem_mantissa : 'e' ∉ n.mantissa := by
  intro he
  rcases h.mem_mantissa 'e' he with hc | hc <;> exact absurd hc (by decide)

/-- What stands before the exponent ends with a digit, or with the point. -/
theorem last_cases :
    (∃ d, n.mantissa.getLast? = some d ∧ d.isDigit = true) ∨ n.point = true ∧ n.fraction = [] := by
  cases hp : n.point with
  | false =>
      have hw : n.whole ≠ [] := fun hw => h.digits_ne_nil ⟨hw, h.point hp⟩
      refine .inl ⟨n.whole.getLast hw, ?_, h.whole _ (List.getLast_mem hw)⟩
      simp [mantissa, hp, List.getLast?_eq_some_getLast hw]
  | true =>
      by_cases hf : n.fraction = []
      · exact .inr ⟨rfl, hf⟩
      · refine .inl ⟨n.fraction.getLast hf, ?_, h.fraction _ (List.getLast_mem hf)⟩
        simp [mantissa, hp, List.getLast?_append, List.getLast?_cons, List.getLast?_eq_some_getLast hf]

/-- A small letter `e` in a number starts its exponent. -/
theorem exponent_cases : 'e' ∉ n.text ∨ ∃ sign digits, n.exponent = some ⟨'e', sign, digits⟩ ∧
    n.text = n.mantissa ++ 'e' :: (sign.toList ++ digits) ∧ 'e' ∉ sign.toList ++ digits := by
  have hm := h.e_not_mem_mantissa
  rw [text_eq]
  cases hn : n.exponent with
  | none => exact .inl (by simpa using hm)
  | some e =>
      obtain ⟨letter, sign, digits⟩ := e
      obtain ⟨hl, hs, hd, -⟩ := h.exponent _ hn
      simp only at hl hs hd
      have ht : 'e' ∉ sign.toList ++ digits := by
        have hne : 'e' ∉ digits := fun he => absurd (hd 'e' he) (by decide)
        rcases hs with rfl | rfl | rfl <;> simp [hne]
      rcases hl with rfl | rfl
      · exact .inr ⟨sign, digits, rfl, rfl, ht⟩
      · refine .inl ?_
        simpa [WrittenExponent.text, not_or] using ⟨hm, by simpa using ht⟩

end IsRead

namespace IsWritten

variable {n : Numeral} (h : n.IsWritten)
include h

theorem isPlain : ∀ c ∈ n.text, IsPlain c := h.isRead.isPlain

theorem exists_getLast : ∃ d, n.mantissa.getLast? = some d ∧ d.isDigit = true := by
  rcases h.isRead.last_cases with hd | ⟨hp, hf⟩
  · exact hd
  · simp [h.point, hf] at hp

theorem euler_eq_self : euler.apply n.text = n.text := by
  rcases h.isRead.exponent_cases with hn | ⟨sign, digits, -, ht, hr⟩
  · exact (euler_quiet hn).apply
  · -- The constant is not read behind a digit.
    obtain ⟨d, hl, hd⟩ := h.exists_getLast
    have hs : startsWord (some d) = false := by
      simp [startsWord, isWord_of_isAlphanum (c := d) (by simp [Char.isAlphanum, hd])]
    rw [ht, euler_apply_once h.isRead.e_not_mem_mantissa hr, hl, hs]
    simp

theorem beforeTrig_text : beforeTrig n.text = n.text :=
  beforeTrig_of_plain h.isPlain h.euler_eq_self h.isPlain

theorem text_text (mode : AngleMode) : Canonical.text mode n.text = n.text :=
  text_of_plain h.isPlain h.euler_eq_self h.isPlain

theorem isBalanced : IsBalanced n.text := by
  have hp : Parenthesis.ofText n.text = [] := by
    refine Parenthesis.ofText_eq_nil_iff.mpr fun c hc => ?_
    obtain ⟨-, -, -, -, ho, hcl, -⟩ := h.isPlain c hc
    exact ⟨ho, hcl⟩
  rw [IsBalanced, h.beforeTrig_text, hp]
  rfl

/-! ## Signs behind a number -/

theorem text_of_plain (he : n.exponent = none) :
    n.text = n.whole ++ if n.fraction = [] then [] else '.' :: n.fraction := by
  cases hf : n.fraction with
  | nil => simp [text_eq, mantissa, he, h.point, hf]
  | cons c fraction => simp [text_eq, mantissa, he, h.point, hf]

theorem isLiteral_text (he : n.exponent = none) : IsLiteral n.text :=
  ⟨n.whole, n.fraction, h.whole_ne_nil, fun c hc => isDecimalDigit_of_isDigit
    ((List.mem_append.mp hc).elim (h.whole c) (h.fraction c)), h.text_of_plain he⟩

theorem signRule_text {sign : Char} {before after : String} (hs : isDecimalDigit sign = false)
    (hp : sign ≠ '.') (he : n.exponent = none) : (signRule sign before after).apply (n.text ++ [sign]) =
      before.toList ++ n.text ++ after.toList := by
  have hr : signRule sign before after none (n.text ++ [sign] ++ []) =
      some ⟨n.text.length + 1, before.toList ++ n.text ++ after.toList⟩ := by
    rw [List.append_nil, signRule, literalBefore?_of_isLiteral hs hp (h.isLiteral_text he)]
    rfl
  have := Rule.apply_taken hr (by simp) (by simp)
  simpa [Rule.applyFrom] using this

theorem beforeTrig_percent (he : n.exponent = none) :
    beforeTrig (n.text ++ ['%']) = beforeTrig ('(' :: (n.text ++ '/' :: ['1', '0', '0', ')'])) := by
  -- The two texts agree once the rule for percent has run, which finds nothing in the quotient.
  have hs : ∀ word, word.map asciiSign = word → (n.text ++ word).map asciiSign = n.text ++ word := by
    intro word hw
    rw [List.map_append, map_asciiSign_eq_self h.isPlain, hw]
  have hopen : asciiSign '(' = '(' := by decide
  have hn : '%' ∉ '(' :: (n.text ++ '/' :: ['1', '0', '0', ')']) := by
    have : '%' ∉ n.text := fun hm => absurd (h.isRead.toIsFormed.numeralSign '%' hm) (by decide)
    simp [this]
  have hp : percent.apply (n.text ++ ['%']) = '(' :: (n.text ++ '/' :: ['1', '0', '0', ')']) := by
    rw [percent, h.signRule_text (by decide) (by decide) he]
    rfl
  simp only [beforeTrig, hs ['%'] (by decide), List.map_cons, hopen,
    hs ('/' :: ['1', '0', '0', ')']) (by decide), hp, percent_eq_self hn]

theorem not_mem_e (he : n.exponent = none) : 'e' ∉ n.text := by
  intro hm
  rw [text_eq, he] at hm
  exact h.isRead.e_not_mem_mantissa (by simpa using hm)

theorem beforeTrig_factorial (he : n.exponent = none) :
    beforeTrig (n.text ++ ['!']) = NamedFunction.factorial.name.toList ++ '(' :: (n.text ++ [')']) := by
  have hmem : ∀ c, c ∉ numeralSigns → c ≠ '!' → c ∉ n.text ++ ['!'] := by
    intro c hc hne hm
    rcases List.mem_append.mp hm with hm | hm
    · exact hc (h.isRead.toIsFormed.numeralSign c hm)
    · exact hne (by simpa using hm)
  have hpi : ∀ c ∈ n.text ++ ['!'], isPiLetter c = false ∧ spells 'p' c = false := by
    intro c hc
    rcases List.mem_append.mp hc with hc | hc
    · exact (h.isPlain c hc).2.2.2.2.2.2
    · obtain rfl : c = '!' := by simpa using hc
      decide
  have heuler : 'e' ∉ n.text ++ ['!'] := by simp [h.not_mem_e he]
  have hsign : (n.text ++ ['!']).map asciiSign = n.text ++ ['!'] := by
    rw [List.map_append, map_asciiSign_eq_self h.isPlain]
    rfl
  have hpower : (n.text ++ ['!']).flatMap powerSign = n.text ++ ['!'] := by
    rw [List.flatMap_append, flatMap_powerSign_eq_self h.isPlain]
    rfl
  rw [beforeTrig, hsign, percent_eq_self (hmem '%' (by decide) (by decide)), pi_eq_self hpi,
    (euler_quiet heuler).apply, hpower, functionCall_eq_self (hmem '(' (by decide) (by decide)),
    Canonical.factorial, h.signRule_text (by decide) (by decide) he]
  have hname : "factorial(".toList = NamedFunction.factorial.name.toList ++ ['('] := by decide
  have hclose : ")".toList = [')'] := by decide
  rw [hname, hclose, List.append_assoc, List.append_assoc]
  rfl

theorem text_factorial (mode : AngleMode) (he : n.exponent = none) :
    Canonical.text mode (n.text ++ ['!']) =
    NamedFunction.factorial.name.toList ++ '(' :: (n.text ++ [')']) := by
  have hb := h.isBalanced
  rw [IsBalanced, h.beforeTrig_text] at hb
  have := @expandTrig_callFree mode _ _ [] (callFree_name .factorial rfl) hb
  have ht := h.text_text mode
  rw [Canonical.text, h.beforeTrig_text] at ht
  rw [Canonical.text, h.beforeTrig_factorial he, this, ht]
  rfl

theorem isBalanced_factorial (he : n.exponent = none) : IsBalanced (n.text ++ ['!']) := by
  have hb := h.isBalanced
  rw [IsBalanced, h.beforeTrig_text] at hb
  have hname : Parenthesis.ofText NamedFunction.factorial.name.toList = [] := by decide
  rw [IsBalanced, h.beforeTrig_factorial he, Parenthesis.ofText_append, hname]
  simpa using hb.group

end IsWritten

end DeskCalculator.Numeral

/-! ## Constants -/

namespace DeskCalculator.Canonical

open Character

/-- The word is the constant as the user may write it. -/
def IsTypedConstant : Constant → List Char → Prop
  | .pi, word => word = ['π'] ∨ word.map Char.toLower = ['p', 'i']
  | .e, word => word = ['e']

/-- Each constant with each of its words. -/
def constantWords : List (Constant × List Char) :=
  [(.e, ['e']), (.pi, ['π']), (.pi, ['p', 'i']), (.pi, ['p', 'I']), (.pi, ['P', 'i']), (.pi, ['P', 'I'])]

theorem IsTypedConstant.mem {c : Constant} {word : List Char} (h : IsTypedConstant c word) :
    (c, word) ∈ constantWords := by
  cases c with
  | e =>
      obtain rfl := h
      decide
  | pi =>
      rcases h with rfl | h
      · decide
      · match word with
        | [] | [_] | _ :: _ :: _ :: _ => simp at h
        | [p, i] =>
            simp only [List.map_cons, List.map_nil, List.cons.injEq, and_true] at h
            rcases eq_of_toLower (by decide) h.1 with rfl | rfl <;>
              rcases eq_of_toLower (by decide) h.2 with rfl | rfl <;> decide

theorem beforeTrig_constant : ∀ p ∈ constantWords, beforeTrig p.2 = p.1.name.toList := by decide

theorem IsTypedConstant.text {c : Constant} {word : List Char} (h : IsTypedConstant c word)
    (mode : AngleMode) :
    Canonical.text mode word = c.name.toList ∧ IsBalanced word := by
  have hparen : ∀ d ∈ c.name.toList, d ≠ '(' ∧ d ≠ ')' := by
    cases c <;> exact forall_mem_of_all (by decide)
  have hb : beforeTrig word = c.name.toList := beforeTrig_constant _ h.mem
  rw [Canonical.text, IsBalanced, hb, Parenthesis.ofText_eq_nil_iff.mpr hparen]
  exact ⟨expandTrig_eq_self hparen, rfl⟩

end DeskCalculator.Canonical
