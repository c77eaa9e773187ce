import DeskCalculator.Proofs.Decimal.Value
import DeskCalculator.Proofs.Numeral

/-!
# The layouts of decimal numbers

Both layouts are numbers written in full, with exactly the value that was laid out: only zeros are
left out at the end of a fraction.
-/

namespace DeskCalculator

/-! ## Digits -/

theorem isDigit_of_mem_toDigits {n : Nat} : ∀ c ∈ Nat.toDigits 10 n, c.isDigit = true :=
  fun _ hc => Nat.isDigit_of_mem_toDigits (by decide) (by decide) hc

namespace Decimal

theorem exists_trailingZeros (digits : List Char) :
    ∃ zeros, digits = dropTrailingZeros digits ++ List.replicate zeros '0' := by
  have hall : digits.reverse.takeWhile (· == '0') =
      List.replicate (digits.reverse.takeWhile (· == '0')).length '0' := by
    refine List.eq_replicate_iff.mpr ⟨rfl, fun c hc => ?_⟩
    simpa using List.all_eq_true.mp List.all_takeWhile c hc
  refine ⟨(digits.reverse.takeWhile (· == '0')).length, ?_⟩
  rw [dropTrailingZeros, ← List.reverse_replicate, ← hall, ← List.reverse_append,
    List.takeWhile_append_dropWhile, List.reverse_reverse]

theorem isDigit_of_mem_fractionDigits {n places : Nat} :
    ∀ c ∈ fractionDigits n places, c.isDigit = true := by
  intro c hc
  obtain ⟨zeros, hz⟩ :=
    exists_trailingZeros (List.replicate (places - (Nat.toDigits 10 n).length) '0' ++ Nat.toDigits 10 n)
  have hmem : c ∈ List.replicate (places - (Nat.toDigits 10 n).length) '0' ++ Nat.toDigits 10 n := by
    rw [hz]
    exact List.mem_append_left _ hc
  rcases List.mem_append.mp hmem with hm | hm
  · rw [List.eq_of_mem_replicate hm]
    decide
  · exact isDigit_of_mem_toDigits c hm

/-- The places that the digits of a fraction leave out hold zeros. -/
theorem fractionDigits_spec {n places : Nat} (h : n < 10 ^ places) :
    (fractionDigits n places).length ≤ places ∧
    Nat.ofDigitChars 10 (fractionDigits n places) 0 * 10 ^ (places - (fractionDigits n places).length) =
      n := by
  rcases Nat.eq_zero_or_pos places with rfl | hp
  · obtain rfl : n = 0 := by simpa using h
    decide
  obtain ⟨zeros, hz⟩ :=
    exists_trailingZeros (List.replicate (places - (Nat.toDigits 10 n).length) '0' ++ Nat.toDigits 10 n)
  have hlen : (fractionDigits n places).length + zeros = places := by
    have hfit := (Nat.length_toDigits_le_iff (by decide) hp).mpr h
    have := congrArg List.length hz
    simp only [List.length_append, List.length_replicate] at this
    rw [fractionDigits]
    omega
  have hvalue := congrArg (fun digits => Nat.ofDigitChars 10 digits 0) hz
  simp only [Nat.ofDigitChars_append, Nat.ofDigitChars_replicate_zero, Nat.mul_zero,
    Nat.ofDigitChars_ten_toDigits] at hvalue
  refine ⟨by omega, ?_⟩
  have hzeros : places - (fractionDigits n places).length = zeros := by omega
  rw [hzeros, Nat.mul_comm]
  exact hvalue.symm

/-! ## Numbers with a point -/

/-- The number `n / 10 ^ places` with an exponent behind it. -/
def pointedNumeral (n places : Nat) (exponent : Option WrittenExponent) : Numeral :=
  let fraction := fractionDigits (n % 10 ^ places) places
  ⟨Nat.toDigits 10 (n / 10 ^ places), !fraction.isEmpty, fraction, exponent⟩

section

variable {n places : Nat} {exponent : Option WrittenExponent}

theorem text_pointedNumeral :
    (pointedNumeral n places exponent).text =
      pointed n places ++ (exponent.map WrittenExponent.text).getD [] := by
  rw [Numeral.text, pointedNumeral, pointed, Nat.pow_eq]
  cases fractionDigits (n % 10 ^ places) places with
  | nil => rfl
  | cons c fraction => rfl

theorem isWritten_pointedNumeral (he : ∀ e ∈ exponent, e.IsWritten) :
    (pointedNumeral n places exponent).IsWritten :=
  ⟨isDigit_of_mem_toDigits, Nat.toDigits_ne_nil, isDigit_of_mem_fractionDigits, rfl, he⟩

theorem digits_pointedNumeral : (pointedNumeral n places exponent).decimal.digits *
    10 ^ (places - (pointedNumeral n places exponent).fraction.length) = n := by
  obtain ⟨hle, hvalue⟩ := fractionDigits_spec (Nat.mod_lt n (Nat.pow_pos (by decide) : 0 < 10 ^ places))
  rw [Numeral.decimal, pointedNumeral]
  generalize fractionDigits (n % 10 ^ places) places = fraction at hle hvalue
  have hpow : 10 ^ places = 10 ^ fraction.length * 10 ^ (places - fraction.length) := by
    rw [← Nat.pow_add, Nat.add_sub_cancel' hle]
  calc Nat.ofDigitChars 10 (Nat.toDigits 10 (n / 10 ^ places) ++ fraction) 0 *
        10 ^ (places - fraction.length)
      = (10 ^ fraction.length * (n / 10 ^ places) + Nat.ofDigitChars 10 fraction 0) *
          10 ^ (places - fraction.length) := by
        rw [Nat.ofDigitChars_append, Nat.ofDigitChars_ten_toDigits,
          Nat.ofDigitChars_eq_ofDigitChars_zero]
    _ = 10 ^ places * (n / 10 ^ places) + n % 10 ^ places := by
        rw [Nat.add_mul, hvalue, Nat.mul_right_comm, ← hpow]
    _ = n := Nat.div_add_mod n (10 ^ places)

theorem value_pointedNumeral : (pointedNumeral n places exponent).decimal.value =
    n / 10 ^ places * 10 ^ (exponent.map WrittenExponent.value).getD 0 := by
  have hten : (10 : ℚ) ≠ 0 := by norm_num
  have hle : (pointedNumeral n places exponent).fraction.length ≤ places :=
    (fractionDigits_spec (Nat.mod_lt n (Nat.pow_pos (by decide) : 0 < 10 ^ places))).1
  have hdigits := @digits_pointedNumeral n places exponent
  have hexponent : (pointedNumeral n places exponent).decimal.exponent =
      (exponent.map WrittenExponent.value).getD 0 -
        (pointedNumeral n places exponent).fraction.length := rfl
  rw [value, hexponent, zpow_sub₀ hten, zpow_natCast]
  generalize (pointedNumeral n places exponent).fraction.length = length at hle hdigits ⊢
  generalize (pointedNumeral n places exponent).decimal.digits = digits at hdigits ⊢
  obtain ⟨rest, rfl⟩ := Nat.exists_eq_add_of_le hle
  rw [← hdigits, Nat.add_sub_cancel_left, pow_add]
  push_cast
  field_simp

end

/-! ## Texts -/

/-- The text is a number written in full, without a sign, and stands for `q`. -/
def Writes (text : List Char) (q : ℚ) : Prop :=
  ∃ n : Numeral, n.IsWritten ∧ n.text = text ∧ n.decimal.value = q

theorem Writes.unique {text : List Char} {q q' : ℚ} (h : Writes text q) (h' : Writes text q') :
    q = q' := by
  obtain ⟨n, hn, rfl, rfl⟩ := h
  obtain ⟨n', hn', ht, rfl⟩ := h'
  rw [hn.isRead.toIsFormed.eq_of_text hn'.isRead.toIsFormed ht.symm]

theorem not_writes_minus {text : List Char} {q : ℚ} : ¬ Writes ('-' :: text) q := by
  rintro ⟨n, hn, ht, -⟩
  obtain ⟨c, word, hc, hd⟩ := hn.exists_digit
  rw [ht, List.cons.injEq] at hc
  exact absurd (hc.1 ▸ hd) (by decide)

theorem writes_toDigits (n : Nat) : Writes (Nat.toDigits 10 n) n := by
  refine ⟨⟨Nat.toDigits 10 n, false, [], none⟩,
    .of_digits Nat.toDigits_ne_nil isDigit_of_mem_toDigits, ?_, ?_⟩
  · simp [Numeral.text]
  · simp [Numeral.decimal, value]

/-! ## The two layouts -/

/-- An exponent that shows its sign. -/
def signedExponent (e : ℤ) : WrittenExponent :=
  ⟨'e', some (if e < 0 then '-' else '+'), Nat.toDigits 10 e.natAbs⟩

theorem isWritten_signedExponent (e : ℤ) : (signedExponent e).IsWritten := by
  refine ⟨.inl rfl, .inr ?_, isDigit_of_mem_toDigits, Nat.toDigits_ne_nil⟩
  rw [signedExponent]
  split
  · exact .inr rfl
  · exact .inl rfl

theorem value_signedExponent (e : ℤ) : (signedExponent e).value = e := by
  have hsign : some (if e < 0 then '-' else '+') = some '-' ↔ e < 0 := by
    by_cases he : e < 0 <;> simp [he]
  simp only [WrittenExponent.value, signedExponent, Nat.ofDigitChars_ten_toDigits, hsign]
  split <;> omega

def plainNumeral (d : Decimal) : Numeral :=
  pointedNumeral (d.digits * 10 ^ d.exponent.toNat) (-d.exponent).toNat none

def scientificNumeral (d : Decimal) : Numeral :=
  pointedNumeral d.digits ((Nat.toDigits 10 d.digits).length - 1)
    (some (signedExponent d.leadingExponent))

theorem text_plainNumeral (d : Decimal) : d.plainNumeral.text = d.plain := by
  rw [plainNumeral, text_pointedNumeral, Option.map_none, Option.getD_none, List.append_nil]
  rfl

theorem text_scientificNumeral (d : Decimal) : d.scientificNumeral.text = d.scientific := by
  rw [scientificNumeral, text_pointedNumeral]
  rfl

theorem writes_plain (d : Decimal) : Writes d.plain d.value := by
  refine ⟨d.plainNumeral, isWritten_pointedNumeral (by simp), text_plainNumeral d, ?_⟩
  rw [plainNumeral, value_pointedNumeral, value_eq_div, Option.map_none, Option.getD_none, zpow_zero,
    mul_one, Nat.cast_pow, Nat.cast_ofNat]

theorem writes_scientific (d : Decimal) : Writes d.scientific d.value := by
  have hten : (10 : ℚ) ≠ 0 := by norm_num
  refine ⟨d.scientificNumeral, isWritten_pointedNumeral ?_, text_scientificNumeral d, ?_⟩
  · rintro e ⟨⟩
    exact isWritten_signedExponent _
  · have hlen : d.leadingExponent = ((Nat.toDigits 10 d.digits).length - 1 : Nat) + d.exponent := by
      have := @Nat.length_toDigits_pos 10 d.digits
      rw [leadingExponent]
      omega
    rw [scientificNumeral, value_pointedNumeral, Option.map_some, Option.getD_some, value_signedExponent,
      hlen, zpow_add₀ hten, zpow_natCast, value]
    field_simp

end Decimal

end DeskCalculator
