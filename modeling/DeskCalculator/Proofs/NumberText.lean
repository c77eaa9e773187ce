import DeskCalculator.Proofs.Binary64.NotANumber
import DeskCalculator.Proofs.Evaluation
import DeskCalculator.Proofs.Canonical.Leaves
import DeskCalculator.Proofs.Token.Lexer

/-!
# Typed numbers

A text that is read as one number stays as it is and has the value of the number, except where the letter
of the exponent stands between a point and a sign: that letter is taken for the constant, and what comes
out is no formula.
-/

namespace DeskCalculator

open Character Canonical DeskCalculator.Except

/-! ## White space -/

namespace Canonical

theorem plain_of_isWhiteSpace {c : Char} (h : isWhiteSpace c = true) : IsPlain c := by
  have hne : ∀ d, isWhiteSpace d = false → c ≠ d := by
    rintro d hd rfl
    exact absurd (hd.symm.trans h) Bool.false_ne_true
  have hword := isWord_of_isWhiteSpace h
  refine ⟨?_, ?_, hne _ (by decide), hne _ (by decide), hne _ (by decide), hne _ (by decide), ?_, ?_⟩
  · unfold asciiSign
    split <;> first | rfl | exact absurd h (by decide)
  · simp [powerSign, hne '^' (by decide)]
  · cases hp : isPiLetter c with
    | false => rfl
    | true => exact absurd (isWord_of_isPiLetter hp) (by simp [hword])
  · cases hp : spells 'p' c with
    | false => rfl
    | true => exact absurd (isWord_of_spells (by decide) hp) (by simp [hword])

theorem plain_of_e : ∀ c ∈ "math.e".toList, IsPlain c := forall_mem_of_all (by decide)

end Canonical

theorem e_not_mem_blank {blank : List Char} (h : ∀ c ∈ blank, isWhiteSpace c = true) : 'e' ∉ blank :=
  fun he => absurd (h 'e' he) (by decide)

/-! ## Exponents behind a point -/

/-- The letter of an exponent stands between a point and a sign. -/
def HasLooseExponent (text : List Char) : Prop :=
  ['.', 'e', '+'] <:+: text ∨ ['.', 'e', '-'] <:+: text

theorem infix_of_once {text rest : List Char} {c d : Char} (ht : 'e' ∉ text) (hr : 'e' ∉ rest) :
    [c, 'e', d] <:+: text ++ 'e' :: rest ↔ text.getLast? = some c ∧ rest.head? = some d := by
  constructor
  · rintro ⟨before, after, h⟩
    have h : text ++ 'e' :: rest = (before ++ [c]) ++ 'e' :: (d :: after) := by simpa using h.symm
    obtain ⟨rfl, -, rfl⟩ := (List.append_cons_inj_of_notMem ht hr).mp h
    simp
  · rintro ⟨hl, hh⟩
    obtain ⟨before, rfl⟩ := List.getLast?_eq_some_iff.mp hl
    obtain ⟨after, rfl⟩ := List.head?_eq_some_iff.mp hh
    exact ⟨before, after, by simp⟩

theorem not_hasLooseExponent {text : List Char} (h : 'e' ∉ text) : ¬ HasLooseExponent text := by
  rintro (hi | hi) <;> exact h (hi.subset (by simp))

/-! ## Around the letter of an exponent -/

theorem Numeral.IsRead.exists_last {n : Numeral} (hn : n.IsRead) (before : List Char) :
    ∃ d, (before ++ n.mantissa).getLast? = some d ∧
      startsWord (some d) = decide (n.point = true ∧ n.fraction = []) ∧
      (d = '.' ↔ n.point = true ∧ n.fraction = []) := by
  have hpoint (hp : n.point = true ∧ n.fraction = []) : n.mantissa.getLast? = some '.' := by
    simp [Numeral.mantissa, hp]
  rcases hn.last_cases with ⟨d, hl, hd⟩ | hp
  · have hne : d ≠ '.' := by
      rintro rfl
      exact absurd hd (by decide)
    have hnot : ¬ (n.point = true ∧ n.fraction = []) :=
      fun hp => hne (Option.some.inj (hl.symm.trans (hpoint hp)))
    have hw : isWord d = true := isWord_of_isAlphanum (by simp [Char.isAlphanum, hd])
    exact ⟨d, by simp [List.getLast?_append, hl], by simp [startsWord, hw, hnot], by simp [hne, hnot]⟩
  · have hw : isWord '.' = false := by decide
    exact ⟨'.', by simp [List.getLast?_append, hpoint hp], by simp [startsWord, hw, hp], by simp [hp]⟩

theorem WrittenExponent.IsWritten.exists_head {sign : Option Char} {digits : List Char}
    (h : IsWritten ⟨'e', sign, digits⟩) (after : List Char) :
    ∃ d, (sign.toList ++ digits ++ after).head? = some d ∧
      endsWord (sign.toList ++ digits ++ after) = decide (sign ≠ none) ∧
      (d = '+' ∨ d = '-' ↔ sign ≠ none) := by
  obtain ⟨-, hs, hd, hne⟩ := h
  simp only at hs hd hne
  obtain ⟨d, digits, rfl⟩ := List.exists_cons_of_ne_nil hne
  have hd := hd d (by simp)
  rcases hs with rfl | rfl | rfl
  · have hw : isWord d = true := isWord_of_isAlphanum (by simp [Char.isAlphanum, hd])
    refine ⟨d, rfl, by simp [endsWord, hw], iff_of_false ?_ (by simp)⟩
    rintro (rfl | rfl) <;> exact absurd hd (by decide)
  · exact ⟨'+', rfl, rfl, by simp⟩
  · exact ⟨'-', rfl, rfl, by simp⟩

/-! ## The canonical text of a number -/

namespace Numeral.IsRead

variable {n : Numeral} (hn : n.IsRead) {before after : List Char}
  (hb : ∀ c ∈ before, isWhiteSpace c = true) (ha : ∀ c ∈ after, isWhiteSpace c = true)
include hn hb ha

theorem padded_isPlain : ∀ c ∈ before ++ n.text ++ after, IsPlain c := by
  intro c hc
  rcases List.mem_append.mp hc with hc | hc
  · rcases List.mem_append.mp hc with hc | hc
    · exact plain_of_isWhiteSpace (hb c hc)
    · exact hn.isPlain c hc
  · exact plain_of_isWhiteSpace (ha c hc)

theorem text_padded_of_not_mem (mode : AngleMode) (he : 'e' ∉ n.text) :
    Canonical.text mode (before ++ n.text ++ after) = before ++ n.text ++ after := by
  have hplain := hn.padded_isPlain hb ha
  have hnot : 'e' ∉ before ++ n.text ++ after := by simp [he, e_not_mem_blank hb, e_not_mem_blank ha]
  exact text_of_plain hplain (euler_quiet hnot).apply hplain

/-- The letter of an exponent is read as the constant if it is between a point and a sign, and only then. -/
theorem text_padded_of_exponent (mode : AngleMode) {sign : Option Char} {digits : List Char}
    (hexp : n.exponent = some ⟨'e', sign, digits⟩)
    (ht : n.text = n.mantissa ++ 'e' :: (sign.toList ++ digits)) (he : 'e' ∉ sign.toList ++ digits) :
    (HasLooseExponent (before ++ n.text ++ after) ↔ (n.point = true ∧ n.fraction = []) ∧ sign ≠ none) ∧
      Canonical.text mode (before ++ n.text ++ after) = before ++ n.mantissa ++
        (if (n.point = true ∧ n.fraction = []) ∧ sign ≠ none then "math.e".toList else ['e']) ++
          (sign.toList ++ digits ++ after) := by
  have hplain := hn.padded_isPlain hb ha
  obtain ⟨c, hl, hstart, hc⟩ := hn.exists_last before
  obtain ⟨d, hh, hends, hd⟩ := (hn.exponent _ hexp).exists_head after
  have hleft : 'e' ∉ before ++ n.mantissa := by simp [e_not_mem_blank hb, hn.e_not_mem_mantissa]
  have hright : 'e' ∉ sign.toList ++ digits ++ after := by simpa [e_not_mem_blank ha] using he
  have hraw : before ++ n.text ++ after =
      before ++ n.mantissa ++ 'e' :: (sign.toList ++ digits ++ after) := by simp [ht]
  rw [hraw] at hplain ⊢
  constructor
  · rw [HasLooseExponent, infix_of_once hleft hright, infix_of_once hleft hright, hl, hh, ← hc, ← hd]
    simp only [Option.some.injEq, ← and_or_left]
  · have heuler := euler_apply_once hleft hright
    rw [hl, hstart, hends, ← Bool.decide_and] at heuler
    simp only [decide_eq_true_eq] at heuler
    refine text_of_plain hplain heuler fun c hc => ?_
    rcases List.mem_append.mp hc with hc | hc
    · rcases List.mem_append.mp hc with hc | hc
      · exact hplain c (List.mem_append_left _ hc)
      · refine plain_of_e c ?_
        split at hc
        · exact hc
        · obtain rfl := List.mem_singleton.mp hc
          decide
    · exact hplain c (List.mem_append_right _ (List.mem_cons_of_mem _ hc))

end Numeral.IsRead

/-! ## The tokens of a loose exponent -/

/-- The digits and the point are a number, the letter is the constant, and the sign is an operator. -/
theorem tokens_loose {whole digits after : List Char} {sign : Char}
    (hwhole : ∀ c ∈ whole, c.isDigit = true) (hw : whole ≠ []) (hdigits : ∀ c ∈ digits, c.isDigit = true)
    (hd : digits ≠ []) (hs : sign = '+' ∨ sign = '-') (ha : ∀ c ∈ after, isWhiteSpace c = true) :
    ∃ y o z,
      tokens (whole ++ ['.'] ++ "math.e".toList ++ (sign :: (digits ++ after))) =
        .ok [.number y, .name Constant.e.name, .op o, .number z] := by
  obtain ⟨o, rfl⟩ : ∃ o : Op, o.sign = sign := by
    rcases hs with rfl | rfl
    · exact ⟨.add, rfl⟩
    · exact ⟨.sub, rfl⟩
  have hm : Numeral.IsRead ⟨whole, true, [], none⟩ := ⟨⟨hwhole, by simp, nofun, nofun⟩, by simp [hw]⟩
  have hn : Numeral.IsRead ⟨digits, false, [], none⟩ := (Numeral.IsWritten.of_digits hd hdigits).isRead
  obtain ⟨y, hy⟩ := hm.exists_value
  obtain ⟨z, hz⟩ := hn.exists_value
  refine ⟨y, o, z, ?_⟩
  have hafter : ∀ c ∈ after.head?, c.isDigit = false ∧ c ≠ '.' ∧ c ≠ 'e' ∧ c ≠ 'E' := by
    intro c hc
    have hc := ha c (List.mem_of_mem_head? hc)
    have hdigit : c.isDigit = false := by
      cases hd : c.isDigit with
      | false => rfl
      | true => exact absurd hc (by simp [(not_start_of_digit c (mem_of_digit_or_point (.inl hd))).2])
    refine ⟨hdigit, ?_, ?_, ?_⟩ <;> rintro rfl <;> exact absurd hc (by decide)
  have hdigit : tokens (digits ++ after) = .ok [.number z] := by
    have := tokens_numeral hn hz hafter
    simpa [Numeral.text, tokens_eq_nil_iff.mpr ha] using this
  have hsign : tokens (o.sign :: (digits ++ after)) = .ok [.op o, .number z] := by
    obtain ⟨d, digits, rfl⟩ := List.exists_cons_of_ne_nil hd
    have hd : d ≠ '*' := by
      rintro rfl
      exact absurd (hdigits '*' (by simp)) (by decide)
    rw [tokens_op o (by simpa using hd), hdigit]
    rfl
  have hname : tokens ("math.e".toList ++ (o.sign :: (digits ++ after))) =
      .ok [.name Constant.e.name, .op o, .number z] := by
    have hnone : NoNameHead (o.sign :: (digits ++ after)) := by
      intro c hc
      obtain rfl : o.sign = c := by simpa using hc
      cases o <;> decide
    rw [tokens_name (by decide) hnone, hsign]
    rfl
  have hhead : ∀ c ∈ ("math.e".toList ++ (o.sign :: (digits ++ after))).head?,
      c.isDigit = false ∧ c ≠ '.' ∧ c ≠ 'e' ∧ c ≠ 'E' := by
    intro c hc
    obtain rfl : 'm' = c := by simpa using hc
    decide
  have := tokens_numeral hm hy hhead
  rw [hname] at this
  simpa [Numeral.text] using this

/-! ## The value of a typed number -/

theorem isBlank_of_tokens {raw : String} {t : Token} {ts : List Token}
    (h : tokens raw.toList = .ok (t :: ts)) :
    isBlank raw = false := by
  cases hb : isBlank raw with
  | false => rfl
  | true =>
      rw [tokens_eq_nil_iff.mpr (List.all_eq_true.mp hb)] at h
      cases h

theorem compute_number {text : List Char} {n : Numeral} {x : Float} (ht : tokens text = .ok [.number x])
    (hx : n.value? = some x) : compute text = .ok x := by
  have hv : (Expr.number x).value = .ok x := by
    simp only [Numeral.value?] at hx
    split at hx
    · cases hx
    · obtain rfl := Option.some.inj hx
      exact Expr.defined_of_isNaN (Binary64.isNaN_ofBits (Binary64.bitsOfDecimal_le _))
  have hs : Grammar.Sentence [.number x] (.number x) := (Grammar.Derives.number x).of_atom.of_signed
  have he : Expr.ofPostfixOrder (ParseTree.number x).postorder = .ok (.number x) := rfl
  simp [compute, parse, ht, hs.ofTokens, ParseTree.nesting, he, hv, Except.mapError]

theorem compute_loose {text : List Char} {y z : Float} {o : Op}
    (ht : tokens text = .ok [.number y, .name Constant.e.name, .op o, .number z]) :
    compute text = .error (.grammar .adjacentValues) := by
  have ho : PostfixOrder.ofTokens [.number y, .name Constant.e.name, .op o, .number z] =
      .error .adjacentValues := rfl
  simp [compute, parse, ht, ho, Except.mapError]

/-- A typed number stays as it is and has its value, unless its exponent is loose: then nothing is read
as a number any more, and two values stand side by side. -/
theorem evaluate_number (mode : AngleMode) {raw : String} {x : Float}
    (h : tokens raw.toList = .ok [.number x]) :
    (¬ HasLooseExponent raw.toList →
      Canonical.text mode raw.toList = raw.toList ∧ evaluate mode raw = (do return some (← settle x))) ∧
    (HasLooseExponent raw.toList →
      (∃ y o z, tokens (Canonical.text mode raw.toList) =
        .ok [.number y, .name Constant.e.name, .op o, .number z]) ∧
        evaluate mode raw = .error (.grammar .adjacentValues)) := by
  have hblank := isBlank_of_tokens h
  obtain ⟨before, n, after, hraw, hn, hx, hb, ha⟩ := exists_numeral_of_tokens h
  have hstays (ht : Canonical.text mode raw.toList = raw.toList) :
      evaluate mode raw = (do return some (← settle x)) := by
    simp [evaluate, hblank, ht, compute_number h hx]
  rcases hn.exponent_cases with he | ⟨sign, digits, hexp, ht, he⟩
  · have htext := hn.text_padded_of_not_mem hb ha mode he
    have hnot : 'e' ∉ raw.toList := by simp [hraw, he, e_not_mem_blank hb, e_not_mem_blank ha]
    rw [← hraw] at htext
    exact ⟨fun _ => ⟨htext, hstays htext⟩, fun hl => absurd hl (not_hasLooseExponent hnot)⟩
  · obtain ⟨hloose, htext⟩ := hn.text_padded_of_exponent hb ha mode hexp ht he
    rw [← hraw] at hloose htext
    refine ⟨fun hl => ?_, fun hl => ?_⟩
    · rw [if_neg (hloose.not.mp hl)] at htext
      have htext : Canonical.text mode raw.toList = raw.toList := by
        rw [htext, hraw, ht]
        simp
      exact ⟨htext, hstays htext⟩
    · rw [if_pos (hloose.mp hl)] at htext
      obtain ⟨⟨hp, hf⟩, hne⟩ := hloose.mp hl
      obtain ⟨-, hsign, hdigits, hd⟩ := hn.exponent _ hexp
      obtain ⟨s, rfl, hs⟩ : ∃ s, sign = some s ∧ (s = '+' ∨ s = '-') := by
        rcases hsign.resolve_left hne with rfl | rfl
        · exact ⟨'+', rfl, .inl rfl⟩
        · exact ⟨'-', rfl, .inr rfl⟩
      have hmantissa : n.mantissa = n.whole ++ ['.'] := by simp [Numeral.mantissa, hp, hf]
      obtain ⟨y, o, z, hts⟩ :=
        tokens_loose hn.whole (fun hw => hn.digits_ne_nil ⟨hw, hf⟩) hdigits hd hs ha
      have hts : tokens (Canonical.text mode raw.toList) =
          .ok [.number y, .name Constant.e.name, .op o, .number z] := by
        rw [htext, hmantissa, List.append_assoc, List.append_assoc, tokens_blank hb]
        simpa using hts
      refine ⟨⟨y, o, z, hts⟩, ?_⟩
      simp [evaluate, hblank, compute_loose hts]

/-- The number 100000 with a point and a sign. -/
theorem evaluate_loose_number : tokens "1.e+5".toList = .ok [.number 100000] ∧
    evaluate .degrees "1.e+5" = .error (.grammar .adjacentValues) := by
  have h : tokens "1.e+5".toList = .ok [.number 100000] := by decide +kernel
  exact ⟨h, ((evaluate_number .degrees h).2 (.inl ⟨['1'], ['5'], rfl⟩)).2⟩

end DeskCalculator
