import DeskCalculator.Proofs.Binary64.Order
import DeskCalculator.Proofs.Display
import DeskCalculator.Proofs.Outcome
import DeskCalculator.Proofs.Phrase

/-!
# Answers typed again

The text of a result is a number with at most a sign, which no rule rewrites. It evaluates to the
double nearest to the number that it stands for, which is again a result with the same sign.
-/

namespace DeskCalculator

open DeskCalculator.Except Grammar Binary64

/-! ## Numbers with a sign -/

/-- The text stands for the number: it is written in full, after a minus where it is negative. -/
inductive Denotes : List Char → ℚ → Prop
  | unsigned {text : List Char} {q : ℚ} (h : Decimal.Writes text q) : Denotes text q
  | negative {text : List Char} {q : ℚ} (h : Decimal.Writes text q) : Denotes ('-' :: text) (-q)

/-- A text stands for one number. -/
theorem Denotes.unique {text : List Char} {q q' : ℚ} (h : Denotes text q) (h' : Denotes text q') :
    q = q' := by
  cases h with
  | unsigned h =>
      cases h' with
      | unsigned h' => exact h.unique h'
      | negative h' => exact absurd h Decimal.not_writes_minus
  | negative h =>
      cases h' with
      | unsigned h' => exact absurd h' Decimal.not_writes_minus
      | negative h' => rw [h.unique h']

/-- The double is the nearest one to the number, on the same side of zero. -/
structure IsRounded (q : ℚ) (w : Float) : Prop where
  nearest : IsNearest |q| (magnitudeBits w)
  sign : isNegative w = decide (q < 0)

def signed (negative : Bool) (text : List Char) : List Char := if negative then '-' :: text else text

theorem abs_sign_mul (negative : Bool) (q : ℚ) : |(if negative then -1 else 1) * q| = |q| := by
  rw [abs_mul]
  cases negative with
  | false => rw [if_neg Bool.false_ne_true, abs_one, one_mul]
  | true => rw [if_pos rfl, abs_neg, abs_one, one_mul]

theorem abs_value (x : Float) : |value x| = magnitude (magnitudeBits x) := by
  rw [value, abs_sign_mul, abs_of_nonneg (magnitude_nonneg _)]

/-! ## Evaluations of numbers -/

theorem ReadAs.evaluate {mode : AngleMode} {raw : List Char} {strength : Nat} {t : ParseTree} {e : Expr}
    {x : Float} (h : ReadAs mode raw (Category.ofStrength strength) t)
    (hdepth : t.nesting ≤ PostfixOrder.maxDepth) (he : Expr.ofPostfixOrder t.postorder = .ok e)
    (hx : e.value = .ok x) :
    evaluate mode (String.ofList raw) = (do return some (← settle x)) := by
  obtain ⟨ts, hd, ht⟩ := h.exists_tokens
  have hs : Sentence ts t := hd.of_le (Nat.zero_le strength)
  have hb : isBlank (String.ofList raw) = false := by
    rw [isBlank, String.toList_ofList]
    exact h.visible
  have hc : DeskCalculator.compute (Canonical.text mode raw) = .ok x := by
    simp [DeskCalculator.compute, parse, ht, hs.ofTokens, hdepth, he, hx, Except.mapError]
  simp [DeskCalculator.evaluate, hb, hc]

theorem evaluate_numeral {mode : AngleMode} {n : Numeral} (hn : n.IsWritten) (negative : Bool) :
    evaluate mode (String.ofList (signed negative n.text)) =
      (do return some (← settle (ofBits negative (bitsOfDecimal n.decimal)))) := by
  have hle := (Decimal.isNearest_bitsOfDecimal n.decimal).1
  have hx : n.value? = some (ofBits false (bitsOfDecimal n.decimal)) := by
    simp [Numeral.value?, hn.whole_ne_nil]
  generalize bitsOfDecimal n.decimal = bits at hle hx
  have hv : (Expr.number (ofBits false bits)).value = .ok (ofBits false bits) :=
    Expr.defined_of_isNaN (isNaN_ofBits hle)
  have hread := (ReadAs.number hn hx mode).of_atom 3
  cases negative with
  | false => exact hread.evaluate (Nat.zero_le _) rfl hv
  | true =>
      have hneg : (Expr.negation (.number (ofBits false bits))).value = .ok (ofBits true bits) := by
        simp only [Expr.value] at hv ⊢
        rw [hv, ok_bind, Expr.defined_of_isNaN ((isNaN_neg _).trans (isNaN_ofBits hle)), neg_ofBits hle]
        rfl
      have hminus :
          ReadAs mode ('-' :: n.text) (Category.ofStrength 3) (.minus (.number (ofBits false bits))) :=
        .minus (by decide) hread
      exact hminus.evaluate (Nat.zero_le _) rfl hneg

/-! ## Results -/

theorem bits_of_isResult {v : Float} (h : IsResult v) (h0 : v ≠ 0) :
    Display.toleranceBits ≤ magnitudeBits v ∧ magnitudeBits v < infinity := by
  obtain ⟨hf, ht⟩ := h.resolve_left h0
  exact ⟨(tolerance_le_abs_iff (isNaN_of_isFinite hf)).mp ht, isFinite_iff.mp hf⟩

section

variable {negative : Bool} {bits : Nat} (hlow : Display.toleranceBits ≤ bits) (htop : bits < infinity)
include hlow htop

theorem settle_ofBits : settle (ofBits negative bits) = .ok (ofBits negative bits) := by
  have hf : (ofBits negative bits).isFinite = true := by
    rw [isFinite_ofBits htop.le, decide_eq_true_iff]
    exact htop.ne
  rw [settle_of_isFinite hf, if_pos]
  rwa [tolerance_le_abs_iff (isNaN_of_isFinite hf), magnitudeBits_ofBits htop.le]

theorem ofBits_ne_zero : ofBits negative bits ≠ 0 := by
  intro h
  have hbits := @magnitudeBits_ofBits negative bits htop.le
  rw [h, magnitudeBits_zero] at hbits
  exact absurd (hbits ▸ hlow) (by decide)

end

/-! ## Texts of results -/

namespace Display

variable {v : Float}

theorem text_of_result (hlow : toleranceBits ≤ magnitudeBits v) (htop : magnitudeBits v < infinity) :
    text v = String.ofList (signed (isNegative v) (magnitudeText v)) := by
  have hwhole : ¬ (isNearlyWhole v && nearestWhole v == 0) = true := by
    rw [Bool.and_eq_true, beq_iff_eq]
    rintro ⟨h, h0⟩
    exact absurd (nearestWhole_pos hlow h) (by omega)
  rw [text, if_neg (Nat.not_le.mpr htop), if_neg hwhole]
  rfl

/-- What the text of a value stands for, and what it evaluates to in both modes. -/
structure Reads (v : Float) (q : ℚ) (w : Float) : Prop where
  denotes : Denotes (text v).toList q
  evaluates : ∀ mode, evaluate mode (text v) = .ok (some w)
  rounded : IsRounded q w
  sign : isNegative w = isNegative v
  zero : w = 0 ↔ v = 0
  /-- A whole number of up to 21 digits stands for all values within the tolerance. -/
  whole : NearWhole (value v) → |value v| < 10 ^ 21 → |q - value v| < 1 / 10 ^ 12
  /-- A larger one is the value itself. -/
  large : 10 ^ 21 ≤ |value v| → w = v
  other : ¬ (NearWhole (value v) ∧ |value v| < 10 ^ 21) → |q - value v| ≤ 5 / 10 ^ 12 * |value v|

theorem text_zero : text 0 = "0" := by decide +kernel

theorem reads_zero : Reads 0 0 0 where
  denotes := by
    rw [text_zero]
    exact .unsigned (Decimal.writes_toDigits 0)
  evaluates mode := by cases mode <;> decide +kernel
  rounded := by
    refine ⟨?_, by decide +kernel⟩
    have := @isNearest_magnitude 0 (by decide)
    rwa [abs_zero, magnitudeBits_zero, ← magnitude_zero]
  sign := rfl
  zero := Iff.rfl
  whole _ _ := by
    rw [value_zero, sub_self, abs_zero]
    norm_num
  large _ := rfl
  other _ := by rw [value_zero, sub_self, abs_zero, mul_zero]

/-- The number that is shown, with the sign of the value. -/
def shownValue (v : Float) : ℚ := (if isNegative v then -1 else 1) * shown v

theorem abs_shownValue_sub (v : Float) :
    |shownValue v - value v| = |magnitude (magnitudeBits v) - shown v| := by
  rw [shownValue, value, ← mul_sub, abs_sign_mul, abs_sub_comm]

theorem denotes_text (hlow : toleranceBits ≤ magnitudeBits v) (htop : magnitudeBits v < infinity) :
    Denotes (text v).toList (shownValue v) := by
  rw [text_of_result hlow htop, String.toList_ofList, shownValue, signed]
  split
  · rw [neg_one_mul]
    exact .negative (writes_magnitudeText v)
  · rw [one_mul]
    exact .unsigned (writes_magnitudeText v)

theorem isRounded_shownValue (hpos : 0 < shown v) {bits : Nat} (hb : IsNearest (shown v) bits) :
    IsRounded (shownValue v) (ofBits (isNegative v) bits) := by
  constructor
  · rwa [magnitudeBits_ofBits hb.1, shownValue, abs_sign_mul, abs_of_pos hpos]
  · rw [isNegative_ofBits hb.1, shownValue]
    split
    · rename_i h
      rw [h, eq_comm, decide_eq_true_iff]
      linarith
    · rename_i h
      rw [Bool.eq_false_of_not_eq_true h, eq_comm, decide_eq_false_iff_not]
      linarith

theorem exists_reads (h : IsResult v) : ∃ q w, Reads v q w := by
  by_cases h0 : v = 0
  · exact ⟨0, 0, h0 ▸ reads_zero⟩
  obtain ⟨hlow, htop⟩ := bits_of_isResult h h0
  obtain ⟨n, hn, ht, hq⟩ := writes_magnitudeText v
  have hb := Decimal.isNearest_bitsOfDecimal n.decimal
  rw [hq] at hb
  obtain ⟨hblow, hbtop⟩ := bits_of_isNearest_shown hlow htop hb
  refine ⟨shownValue v, ofBits (isNegative v) (bitsOfDecimal n.decimal), denotes_text hlow htop,
    fun mode => ?_, isRounded_shownValue (tolerance_pos.trans_le (tolerance_le_shown hlow htop)) hb,
    isNegative_ofBits hb.1, iff_of_false (ofBits_ne_zero hblow hbtop) h0, ?_, ?_, ?_⟩
  · rw [text_of_result hlow htop, ← ht, evaluate_numeral hn, settle_ofBits hblow hbtop]
    rfl
  all_goals rw [abs_value]
  · rw [abs_shownValue_sub, ← isNearlyWhole_iff]
    exact abs_sub_shown_of_whole
  · intro hlarge
    rw [(isNearest_shown_of_large hlarge htop).unique hb, ofBits_magnitudeBits]
  · rw [abs_shownValue_sub, ← isNearlyWhole_iff]
    intro hother
    by_cases hw : isNearlyWhole v = true
    · exact abs_sub_shown_of_large (not_lt.mp fun hlt => hother ⟨hw, hlt⟩) htop
    · exact abs_sub_shown_of_fraction hlow hw

/-- `2 ^ 70` -/
def largeWhole : Float := Float.ofBits 0x4450000000000000

/-- The seventeen digits that read `2 ^ 70` back stand for another whole number. -/
theorem far_text_largeWhole : IsResult largeWhole ∧ NearWhole (value largeWhole) ∧
    ∀ q, Denotes (text largeWhole).toList q → 1 / 10 ^ 12 ≤ |q - value largeWhole| := by
  have hlow : toleranceBits ≤ magnitudeBits largeWhole := by decide +kernel
  have htop : magnitudeBits largeWhole < infinity := by decide +kernel
  have hsign : isNegative largeWhole = false := by decide +kernel
  have hm : magnitude (magnitudeBits largeWhole) = 2 ^ 70 := by
    have h : unitsOfBits (magnitudeBits largeWhole) = 2 ^ 70 * unitsPerOne := by decide +kernel
    rw [magnitude_eq_natCast h]
    norm_num
  have hvalue : value largeWhole = 2 ^ 70 := by
    rw [value, hsign, hm]
    norm_num
  have hshown : shownValue largeWhole = 1180591620717411300000 := by
    have hdigits : Decimal.shortest (magnitudeBits largeWhole) = ⟨11805916207174113, 5⟩ := by
      decide +kernel
    rw [shownValue, hsign, shown_of_large (by rw [hm]; norm_num), hdigits, Decimal.value]
    norm_num
  refine ⟨.inr ⟨by decide +kernel, by decide +kernel⟩, ⟨2 ^ 70, ?_⟩, fun q hq => ?_⟩
  · rw [hvalue, Int.cast_pow, Int.cast_ofNat, sub_self, abs_zero]
    exact tolerance_pos
  · rw [hq.unique (denotes_text hlow htop), hshown, hvalue]
    norm_num

theorem text_eq_zero_iff (h : IsResult v) : text v = "0" ↔ v = 0 := by
  constructor
  · intro ht
    obtain ⟨q, w, hr⟩ := exists_reads h
    have hw := hr.evaluates .degrees
    rw [ht, ← text_zero, reads_zero.evaluates] at hw
    simp only [Except.ok.injEq, Option.some.injEq] at hw
    exact hr.zero.mp hw.symm
  · rintro rfl
    exact text_zero

end Display

end DeskCalculator
