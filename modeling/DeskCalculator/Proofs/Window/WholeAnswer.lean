import DeskCalculator.Proofs.Window

/-!
# Whole answers

A value that is a whole number is shown as exactly this number, or with digits that read back as the
value. So nothing of it is lost, whichever layout it has, and the last answer brings it back.
-/

namespace DeskCalculator

open Binary64

/-! ## Values and their bits -/

namespace Binary64

variable {v w : Float}

theorem value_eq_zero_iff : value v = 0 ↔ magnitudeBits v = 0 := by
  rw [← abs_eq_zero, abs_value, ← magnitude_zero, magnitude_inj]

theorem isNegative_iff_of_ne_zero (h : value v ≠ 0) : isNegative v = true ↔ value v < 0 := by
  have hpos : 0 < magnitude (magnitudeBits v) := abs_value v ▸ abs_pos.mpr h
  rw [value]
  cases isNegative v with
  | true => simp [hpos]
  | false => simp [hpos.le]

/-- Apart from zero, no two doubles have one value. -/
theorem eq_of_value_eq (h0 : value v ≠ 0) (h : value v = value w) : v = w := by
  have hbits : magnitudeBits v = magnitudeBits w := by
    rw [← magnitude_inj, ← abs_value, ← abs_value, h]
  have hsign : isNegative v = isNegative w := by
    rw [Bool.eq_iff_iff, isNegative_iff_of_ne_zero h0, isNegative_iff_of_ne_zero (h ▸ h0), h]
  rw [← ofBits_magnitudeBits v, hbits, hsign, ofBits_magnitudeBits]

end Binary64

/-! ## Whole numbers on the display -/

namespace Display

variable {v : Float} {n : ℤ}

theorem nearWhole_of_value_eq (hv : value v = n) : NearWhole (value v) := by
  refine ⟨n, ?_⟩
  rw [hv, sub_self, abs_zero]
  exact tolerance_pos

theorem text_of_value_eq_zero (h : value v = 0) : text v = "0" := by
  have hbits := value_eq_zero_iff.mp h
  rw [← ofBits_magnitudeBits v, hbits]
  cases isNegative v <;> decide +kernel

theorem isResult_of_value_eq (hf : v.isFinite = true) (hv : value v = n) (hn : n ≠ 0) : IsResult v := by
  refine .inr ⟨hf, (tolerance_le_abs_iff (isNaN_of_isFinite hf)).mpr ?_⟩
  have hone : (1 : ℚ) ≤ |(n : ℚ)| := by exact_mod_cast Int.one_le_abs hn
  rw [← magnitude_le_iff, ← abs_value, hv]
  exact (tolerance_lt.le.trans (by norm_num)).trans hone

/-- Up to 21 digits the whole number itself is shown. -/
theorem shown_of_value_eq (hv : value v = n) (hlt : |value v| < 10 ^ 21) : shown v = |value v| := by
  have hwhole : isNearlyWhole v = true := (isNearlyWhole_iff v).mpr (nearWhole_of_value_eq hv)
  have hdist := (isNearlyWhole_iff_lt v).mp hwhole
  obtain ⟨k, hk⟩ : ∃ k : ℤ, |value v| = k := ⟨|n|, by rw [hv, Int.cast_abs]⟩
  rw [← abs_value, hk] at hdist
  rw [shown_of_whole hwhole (abs_value v ▸ hlt), hk]
  -- Two whole numbers nearer to each other than the tolerance are one.
  have hsmall : (1 : ℚ) / 10 ^ 12 < 1 := by norm_num
  have hone : |(k : ℚ) - nearestWhole v| < 1 := hdist.trans (tolerance_lt.trans hsmall)
  have hnear : |k - nearestWhole v| < 1 := by exact_mod_cast hone
  exact_mod_cast (sub_eq_zero.mp (Int.abs_lt_one_iff.mp hnear)).symm

theorem Reads.eq_of_value_eq {q : ℚ} {w : Float} (h : Reads v q w) (hr : IsResult v) (hv : value v = n)
    (hn : n ≠ 0) :
    w = v := by
  rcases lt_or_ge |value v| (10 ^ 21) with hlt | hge
  · have h0 : v ≠ 0 := by
      rintro rfl
      rw [value_zero, eq_comm, Int.cast_eq_zero] at hv
      exact hn hv
    obtain ⟨hlow, htop⟩ := bits_of_isResult hr h0
    have hq : |q| = magnitude (magnitudeBits v) := by
      rw [h.denotes.unique (denotes_text hlow htop), shownValue, abs_sign_mul, shown_of_value_eq hv hlt,
        abs_abs, abs_value]
    have hbits : magnitudeBits w = magnitudeBits v :=
      (isNearest_magnitude htop.le).unique (hq ▸ h.rounded.nearest)
    rw [← ofBits_magnitudeBits w, hbits, h.sign, ofBits_magnitudeBits]
  · exact h.large hge

/-- What is shown of a whole number has the value of the number again, and zero has no sign then. -/
theorem evaluate_text_of_value_eq (hf : v.isFinite = true) (hv : value v = n) (mode : AngleMode) :
    evaluate mode (text v) = .ok (some (if n = 0 then 0 else v)) := by
  by_cases hn : n = 0
  · rw [if_pos hn, text_of_value_eq_zero (by rw [hv, hn, Int.cast_zero]), ← text_zero]
    exact reads_zero.evaluates mode
  · have hr := isResult_of_value_eq hf hv hn
    obtain ⟨q, w, h⟩ := exists_reads hr
    rw [if_neg hn, h.evaluates mode, h.eq_of_value_eq hr hv hn]

theorem text_eq_text_iff {w : Float} {m : ℤ} (hf : v.isFinite = true) (hv : value v = n)
    (hfw : w.isFinite = true) (hw : value w = m) : text v = text w ↔ n = m := by
  constructor
  · intro ht
    have h := evaluate_text_of_value_eq hf hv .degrees
    rw [ht, evaluate_text_of_value_eq hfw hw] at h
    have hvalue {x : Float} {k : ℤ} (hx : value x = k) : value (if k = 0 then 0 else x) = k := by
      split
      · rename_i hk
        rw [hk, Int.cast_zero, value_zero]
      · exact hx
    have := congrArg value (Option.some.inj (Except.ok.inj h))
    rw [hvalue hw, hvalue hv] at this
    exact_mod_cast this.symm
  · rintro rfl
    by_cases hn : n = 0
    · have hzero : value v = 0 := by rw [hv, hn, Int.cast_zero]
      rw [text_of_value_eq_zero hzero, text_of_value_eq_zero (hw.trans (hv.symm.trans hzero))]
    · have hne : value v ≠ 0 := by rwa [hv, ne_eq, Int.cast_eq_zero]
      rw [eq_of_value_eq hne (hv.trans hw.symm)]

theorem text_settled (hv : value v = n) : text (if n = 0 then 0 else v) = text v := by
  split
  · rename_i hn
    rw [text_zero, text_of_value_eq_zero (by rw [hv, hn, Int.cast_zero])]
  · rfl

theorem text_ne_empty_of_value_eq (hf : v.isFinite = true) (hv : value v = n) : text v ≠ "" := by
  rw [← text_settled hv]
  exact text_ne_empty (isResult_of_evaluate (evaluate_text_of_value_eq hf hv .degrees))

end Display

/-! ## The last answer -/

namespace Window

open Session

theorem after_clear_answer_equals {s : Session} (h : s.answer ≠ "") :
    after s [.click "AC", .click "Ans", .click "="] = (s.clear.insert s.answer).evaluateEntry := by
  have hanswer : step s.clear (.click "Ans") = quiet (s.clear.insert s.answer) :=
    step_answer (s := s.clear) h
  rw [after_cons, step_clear, quiet, after_cons, hanswer, quiet, after_cons, after_nil]
  exact congrArg Outcome.session (step_evaluation rfl)

/-- A whole number reads back from its text in both modes, no two of them have one text, and the last
answer that is taken back into an empty entry and evaluated is the same number again. -/
theorem whole_answer_returns {v : Float} {n : ℤ} (hf : v.isFinite = true) (hv : value v = n) :
    (∀ mode, evaluate mode (Display.text v) = .ok (some (if n = 0 then 0 else v))) ∧
    (∀ w (m : ℤ), w.isFinite = true → value w = m → (Display.text v = Display.text w ↔ n = m)) ∧
    ∀ s, s.answer = Display.text v → after s [.click "AC", .click "Ans", .click "="] =
      { s with
        entry := Display.text v
        display := Display.text v
        answer := Display.text v
        history := (⟨Display.text v, Display.text v⟩ :: s.history).take s.historyLimit
        entryFocused := true } := by
  refine ⟨Display.evaluate_text_of_value_eq hf hv,
    fun w m hfw hw => Display.text_eq_text_iff hf hv hfw hw, ?_⟩
  intro s ha
  have hne : s.answer ≠ "" := ha ▸ Display.text_ne_empty_of_value_eq hf hv
  have hentry : (s.clear.insert s.answer).entry = Display.text v := by
    rw [← ha]
    exact String.empty_append
  have hevaluate := Display.evaluate_text_of_value_eq hf hv s.mode
  rw [after_clear_answer_equals hne, evaluateEntry, hentry]
  have hmode : (s.clear.insert s.answer).mode = s.mode := rfl
  rw [hmode, hevaluate]
  simp only [Display.text_settled hv, recordResult, hentry]
  rfl

/-- The largest double. -/
def largest : Float := Float.ofBits 0x7fefffffffffffff

theorem whole_answer_largest :
    largest.isFinite = true ∧ (∃ n : ℤ, value largest = n) ∧
    (∀ mode, evaluate mode (Display.text largest) = .ok (some largest)) := by
  have hf : largest.isFinite = true := by decide +kernel
  have hsign : isNegative largest = false := by decide +kernel
  obtain ⟨n, hn, hunits⟩ : ∃ n : ℕ, n ≠ 0 ∧ unitsOfBits (magnitudeBits largest) = n * unitsPerOne :=
    ⟨(2 ^ 53 - 1) * 2 ^ 971, by decide +kernel, by decide +kernel⟩
  have hv : value largest = (n : ℤ) := by
    rw [value, hsign, magnitude_eq_natCast hunits, if_neg Bool.false_ne_true, one_mul, Int.cast_natCast]
  refine ⟨hf, ⟨n, hv⟩, fun mode => ?_⟩
  have h := (whole_answer_returns hf hv).1 mode
  rwa [if_neg (Int.natCast_ne_zero.mpr hn)] at h

end Window

end DeskCalculator
