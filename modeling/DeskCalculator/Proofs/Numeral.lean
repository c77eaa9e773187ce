import DeskCalculator.Numeral
import DeskCalculator.Proofs.Character
import DeskCalculator.Proofs.Parentheses

/-!
# Written numbers in a text

What is read as a number is the start of the text. What cannot continue a number ends it wherever it
stands, and a number that is written in full is read back before it.
-/

namespace DeskCalculator

open Character Parenthesis

/-! ## Characters of numbers -/

/-- What a number is written with. -/
def numeralSigns : List Char := asciiDigits ++ ['.', 'e', 'E', '+', '-']

theorem numeralSign_of_digits {word : List Char} (h : ∀ c ∈ word, c.isDigit = true) :
    ∀ c ∈ word, c ∈ numeralSigns :=
  fun c hc => List.mem_append_left _ (mem_asciiDigits (h c hc))

theorem ofText_numeralSigns {word : List Char} (h : ∀ c ∈ word, c ∈ numeralSigns) :
    ofText word = [] := by
  refine ofText_eq_nil_iff.mpr fun c hc => ?_
  refine ⟨?_, ?_⟩ <;> rintro rfl <;> exact absurd (h _ hc) (by decide)

/-! ## Digits -/

/-- The text does not go on with a digit. -/
def NoDigitHead (rest : List Char) : Prop := ∀ c ∈ rest.head?, c.isDigit = false

/-- The text does not go on with a sign of a number. -/
def NoNumeralHead (rest : List Char) : Prop := ∀ c ∈ rest.head?, c ∉ numeralSigns

theorem NoNumeralHead.noDigitHead {rest : List Char} (h : NoNumeralHead rest) : NoDigitHead rest := by
  intro c hc
  cases hd : c.isDigit with
  | false => rfl
  | true => exact absurd (List.mem_append_left _ (mem_asciiDigits hd)) (h c hc)

theorem NoDigitHead.takeWhile {rest : List Char} (h : NoDigitHead rest) :
    rest.takeWhile Char.isDigit = [] := by
  cases rest with
  | nil => rfl
  | cons c rest => simp [h c (by simp)]

theorem NoDigitHead.dropWhile {rest : List Char} (h : NoDigitHead rest) :
    rest.dropWhile Char.isDigit = rest := by
  cases rest with
  | nil => rfl
  | cons c rest => simp [h c (by simp)]

theorem takeWhile_digits {digits rest : List Char} (hd : ∀ c ∈ digits, c.isDigit = true)
    (hr : NoDigitHead rest) :
    (digits ++ rest).takeWhile Char.isDigit = digits := by
  rw [List.takeWhile_append_of_pos hd, hr.takeWhile, List.append_nil]

theorem dropWhile_digits {digits rest : List Char} (hd : ∀ c ∈ digits, c.isDigit = true)
    (hr : NoDigitHead rest) :
    (digits ++ rest).dropWhile Char.isDigit = rest := by
  rw [List.dropWhile_append_of_pos hd, hr.dropWhile]

theorem takeWhile_append (text : List Char) {rest : List Char} (hr : NoDigitHead rest) :
    (text ++ rest).takeWhile Char.isDigit = text.takeWhile Char.isDigit := by
  induction text with
  | nil => exact hr.takeWhile
  | cons c text ih => simp [List.takeWhile_cons, ih]

theorem dropWhile_append (text : List Char) {rest : List Char} (hr : NoDigitHead rest) :
    (text ++ rest).dropWhile Char.isDigit = text.dropWhile Char.isDigit ++ rest := by
  induction text with
  | nil => exact hr.dropWhile
  | cons c text ih =>
      cases hc : c.isDigit with
      | true => simp [hc, ih]
      | false => simp [hc]

theorem noDigitHead_dropWhile (text : List Char) : NoDigitHead (text.dropWhile Char.isDigit) := by
  intro c hc
  have := List.head?_dropWhile_not Char.isDigit text
  rw [Option.mem_def.mp hc] at this
  simpa using this

theorem isDigit_of_mem_takeWhile {text : List Char} :
    ∀ c ∈ text.takeWhile Char.isDigit, c.isDigit = true :=
  fun c hc => List.all_eq_true.mp List.all_takeWhile c hc

/-! ## Exponents -/

namespace WrittenExponent

/-- The exponent is written with at least one digit. -/
structure IsWritten (e : WrittenExponent) : Prop where
  letter : e.letter = 'e' ∨ e.letter = 'E'
  sign : e.sign = none ∨ e.sign = some '+' ∨ e.sign = some '-'
  digits : ∀ c ∈ e.digits, c.isDigit = true
  digits_ne_nil : e.digits ≠ []

theorem sign?_cases (text : List Char) :
    sign? text = none ∨ (∃ rest, text = '+' :: rest ∧ sign? text = some '+') ∨
    (∃ rest, text = '-' :: rest ∧ sign? text = some '-') := by
  unfold sign?
  split <;> simp

theorem sign?_cons (c : Char) (rest rest' : List Char) : sign? (c :: rest) = sign? (c :: rest') := by
  by_cases hp : c = '+'
  · subst hp
    rfl
  by_cases hm : c = '-'
  · subst hm
    rfl
  · simp [sign?, hp, hm]

theorem sign?_append (text : List Char) {rest : List Char} (hr : NoNumeralHead rest) :
    sign? (text ++ rest) = sign? text := by
  cases text with
  | cons d text => exact sign?_cons d _ _
  | nil =>
      rcases sign?_cases rest with h | ⟨r, rfl, -⟩ | ⟨r, rfl, -⟩
      · exact h
      · exact absurd (by decide) (hr '+' rfl)
      · exact absurd (by decide) (hr '-' rfl)

theorem sign?_toList (text : List Char) :
    (sign? text).toList ++ text.drop (sign? text).toList.length = text := by
  rcases sign?_cases text with h | ⟨r, rfl, h⟩ | ⟨r, rfl, h⟩ <;> simp [h]

theorem text_of_read? {text : List Char} {e : WrittenExponent} (h : read? text = some e) :
    ∃ rest, text = e.text ++ rest := by
  cases text with
  | nil => cases h
  | cons c text =>
      simp only [read?] at h
      split at h
      · obtain rfl := Option.some.inj h
        refine ⟨(text.drop (sign? text).toList.length).dropWhile Char.isDigit, ?_⟩
        simp only [WrittenExponent.text, List.cons_append, List.append_assoc,
          List.takeWhile_append_dropWhile, sign?_toList]
      · cases h

theorem isWritten_of_read? {text : List Char} {e : WrittenExponent} (h : read? text = some e) :
    e.IsWritten := by
  cases text with
  | nil => cases h
  | cons c text =>
      simp only [read?] at h
      split at h
      · rename_i hc
        obtain rfl := Option.some.inj h
        simp only [Bool.and_eq_true, Bool.or_eq_true, beq_iff_eq, Bool.not_eq_true',
          List.isEmpty_eq_false_iff] at hc
        refine ⟨hc.1, ?_, isDigit_of_mem_takeWhile, hc.2⟩
        rcases sign?_cases text with hs | ⟨_, -, hs⟩ | ⟨_, -, hs⟩ <;> simp [hs]
      · cases h

theorem IsWritten.numeralSign {e : WrittenExponent} (h : e.IsWritten) :
    ∀ c ∈ e.text, c ∈ numeralSigns := by
  intro c hc
  simp only [WrittenExponent.text, List.mem_cons, List.mem_append, Option.mem_toList] at hc
  rcases hc with (rfl | hs) | hd
  · rcases h.letter with hl | hl <;> rw [hl] <;> decide
  · rcases h.sign with hn | hp | hm
    · cases hn.symm.trans hs
    · cases hp.symm.trans hs
      decide
    · cases hm.symm.trans hs
      decide
  · exact numeralSign_of_digits h.digits c hd

theorem read?_eq_none {rest : List Char} (h : ∀ c ∈ rest.head?, c ≠ 'e' ∧ c ≠ 'E') :
    read? rest = none := by
  cases rest with
  | nil => rfl
  | cons c rest =>
      obtain ⟨he, hE⟩ := h c (by simp)
      simp [read?, he, hE]

theorem read?_append (text : List Char) {rest : List Char} (hr : NoNumeralHead rest) :
    read? (text ++ rest) = read? text := by
  cases text with
  | nil =>
      refine read?_eq_none fun c hc => ⟨?_, ?_⟩ <;> rintro rfl <;> exact absurd (by decide) (hr _ hc)
  | cons c text =>
      have hd : (text ++ rest).drop (sign? text).toList.length =
          text.drop (sign? text).toList.length ++ rest := by
        rcases sign?_cases text with h | ⟨r, rfl, h⟩ | ⟨r, rfl, h⟩ <;> simp [h]
      simp only [read?, List.cons_append, sign?_append text hr, hd, takeWhile_append _ hr.noDigitHead]

theorem read?_text {e : WrittenExponent} (h : e.IsWritten) {rest : List Char} (hr : NoDigitHead rest) :
    read? (e.text ++ rest) = some e := by
  obtain ⟨letter, sign, digits⟩ := e
  obtain ⟨hl, hs, hd, hne⟩ := h
  simp only at hl hs hd hne
  have hsign : sign? (sign.toList ++ (digits ++ rest)) = sign := by
    rcases hs with rfl | rfl | rfl
    · cases digits with
      | nil => exact absurd rfl hne
      | cons d digits =>
          rcases sign?_cases (d :: (digits ++ rest)) with h | ⟨r, h, -⟩ | ⟨r, h, -⟩
          · exact h
          · exact absurd (hd '+' (by simp_all)) (by decide)
          · exact absurd (hd '-' (by simp_all)) (by decide)
    · rfl
    · rfl
  have hl : (letter == 'e' || letter == 'E') = true := by simpa using hl
  simp [read?, WrittenExponent.text, hsign, hl, takeWhile_digits hd hr, hne]

/-- Whatever follows an exponent, it is read at least to its end. -/
theorem exists_read?_append {e : WrittenExponent} (h : e.IsWritten) (rest : List Char) :
    ∃ e', read? (e.text ++ rest) = some e' ∧ e.text.length ≤ e'.text.length := by
  let longer : WrittenExponent := ⟨e.letter, e.sign, e.digits ++ rest.takeWhile Char.isDigit⟩
  have hl : longer.IsWritten := by
    refine ⟨h.letter, h.sign, fun c hc => ?_, by simp [longer, h.digits_ne_nil]⟩
    rcases List.mem_append.mp hc with hc | hc
    · exact h.digits c hc
    · exact isDigit_of_mem_takeWhile c hc
  have ht : e.text ++ rest = longer.text ++ rest.dropWhile Char.isDigit := by simp [longer, text]
  exact ⟨longer, ht ▸ read?_text hl (noDigitHead_dropWhile rest), by simp [longer, text]⟩

end WrittenExponent

/-! ## Numbers -/

namespace Numeral

/-- The number is written with digits, digits behind a point, and a complete exponent. -/
structure IsWritten (n : Numeral) : Prop where
  whole : ∀ c ∈ n.whole, c.isDigit = true
  whole_ne_nil : n.whole ≠ []
  fraction : ∀ c ∈ n.fraction, c.isDigit = true
  point : n.point = !n.fraction.isEmpty
  exponent : ∀ e ∈ n.exponent, e.IsWritten

/-- Digits with at most one point among them, before a complete exponent. -/
structure IsFormed (n : Numeral) : Prop where
  whole : ∀ c ∈ n.whole, c.isDigit = true
  fraction : ∀ c ∈ n.fraction, c.isDigit = true
  point : n.point = false → n.fraction = []
  exponent : ∀ e ∈ n.exponent, e.IsWritten

/-- There is a digit before or behind the point. -/
structure IsRead (n : Numeral) : Prop extends n.IsFormed where
  digits_ne_nil : ¬ (n.whole = [] ∧ n.fraction = [])

theorem IsFormed.numeralSign {n : Numeral} (h : n.IsFormed) : ∀ c ∈ n.text, c ∈ numeralSigns := by
  intro c hc
  simp only [text, List.mem_append] at hc
  rcases hc with (hw | hf) | he
  · exact numeralSign_of_digits h.whole c hw
  · split at hf
    · rcases List.mem_cons.mp hf with rfl | hf
      · decide
      · exact numeralSign_of_digits h.fraction c hf
    · cases hf
  · cases hn : n.exponent with
    | none => simp [hn] at he
    | some e =>
        rw [hn] at he
        exact (h.exponent e hn).numeralSign c he

theorem IsWritten.isRead {n : Numeral} (h : n.IsWritten) : n.IsRead :=
  ⟨⟨h.whole, h.fraction, fun hp => by simpa [hp] using h.point, h.exponent⟩,
    fun hn => h.whole_ne_nil hn.1⟩

theorem IsRead.head_cases {n : Numeral} (h : n.IsRead) :
    ∃ c word, n.text = c :: word ∧ (c.isDigit = true ∨ c = '.') := by
  cases hw : n.whole with
  | cons c whole =>
      rw [text, hw]
      exact ⟨c, _, rfl, .inl (h.whole c (by simp [hw]))⟩
  | nil =>
      cases hp : n.point with
      | true => simp [text, hw, hp]
      | false => exact absurd ⟨hw, h.point hp⟩ h.digits_ne_nil

theorem IsRead.exists_value {n : Numeral} (h : n.IsRead) : ∃ x, n.value? = some x := by
  have hne := h.digits_ne_nil
  simp only [value?]
  split
  · rename_i hn
    simp_all
  · exact ⟨_, rfl⟩

theorem IsWritten.of_digits {digits : List Char} (hne : digits ≠ [])
    (hd : ∀ c ∈ digits, c.isDigit = true) :
    IsWritten ⟨digits, false, [], none⟩ :=
  ⟨hd, hne, by simp, rfl, by simp⟩

theorem IsWritten.exists_digit {n : Numeral} (h : n.IsWritten) :
    ∃ c word, n.text = c :: word ∧ c.isDigit = true := by
  cases hw : n.whole with
  | nil => exact absurd hw h.whole_ne_nil
  | cons c whole =>
      rw [text, hw]
      exact ⟨c, _, rfl, h.whole c (by simp [hw])⟩

/-- A number is read up to what cannot continue it. -/
theorem read_append (text : List Char) {rest : List Char} (hr : NoNumeralHead rest) :
    read (text ++ rest) = read text := by
  have hd := dropWhile_append text hr.noDigitHead
  unfold read
  rw [takeWhile_append text hr.noDigitHead, hd]
  cases text.dropWhile Char.isDigit with
  | nil =>
      have hnone := WrittenExponent.read?_append [] hr
      cases rest with
      | nil => rfl
      | cons c rest =>
          have hc : c ≠ '.' := by
            rintro rfl
            exact absurd (by decide) (hr '.' rfl)
          simpa [hc] using hnone
  | cons c after =>
      by_cases hc : c = '.'
      · subst hc
        simp [takeWhile_append _ hr.noDigitHead, dropWhile_append _ hr.noDigitHead,
          WrittenExponent.read?_append _ hr]
      · have := WrittenExponent.read?_append (c :: after) hr
        simp only [List.cons_append] at this ⊢
        simp [hc, this]

theorem exponentText_read? (text : List Char) :
    ∃ rest, text = ((WrittenExponent.read? text).map WrittenExponent.text).getD [] ++ rest := by
  cases he : WrittenExponent.read? text with
  | none => exact ⟨text, rfl⟩
  | some e => exact WrittenExponent.text_of_read? he

theorem text_read (text : List Char) : ∃ rest, text = (read text).text ++ rest := by
  have ht : text.takeWhile Char.isDigit ++ text.dropWhile Char.isDigit = text :=
    List.takeWhile_append_dropWhile
  unfold read
  split
  · rename_i after hd
    obtain ⟨rest, hr⟩ := exponentText_read? (after.dropWhile Char.isDigit)
    have ha : after.takeWhile Char.isDigit ++ after.dropWhile Char.isDigit = after :=
      List.takeWhile_append_dropWhile
    refine ⟨rest, ?_⟩
    rw [hr] at ha
    rw [hd, ← ha] at ht
    simpa [Numeral.text] using ht.symm
  · obtain ⟨rest, hr⟩ := exponentText_read? (text.dropWhile Char.isDigit)
    refine ⟨rest, ?_⟩
    rw [hr] at ht
    simpa [Numeral.text] using ht.symm

theorem text_read_ne_nil {text : List Char} {x : Float} (h : (read text).value? = some x) :
    (read text).text ≠ [] := by
  unfold read at h ⊢
  split at h
  · simp [Numeral.text]
  · intro ht
    simp only [Numeral.text, List.append_eq_nil_iff] at ht
    simp [value?, ht.1.1] at h

theorem isFormed_read (text : List Char) : (read text).IsFormed := by
  unfold read
  split
  · exact ⟨isDigit_of_mem_takeWhile, isDigit_of_mem_takeWhile, nofun,
      fun e he => WrittenExponent.isWritten_of_read? he⟩
  · exact ⟨isDigit_of_mem_takeWhile, by simp, fun _ => rfl,
      fun e he => WrittenExponent.isWritten_of_read? he⟩

theorem isRead_read {text : List Char} {x : Float} (h : (read text).value? = some x) :
    (read text).IsRead :=
  ⟨isFormed_read text, fun hn => by simp [value?, hn] at h⟩

theorem read_of_point {whole : List Char} (hw : ∀ c ∈ whole, c.isDigit = true) (after : List Char) :
    read (whole ++ '.' :: after) =
      ⟨whole, true, after.takeWhile Char.isDigit,
        WrittenExponent.read? (after.dropWhile Char.isDigit)⟩ := by
  have hdot : NoDigitHead ('.' :: after) := by
    intro c hc
    obtain rfl : '.' = c := by simpa using hc
    decide
  rw [read, takeWhile_digits hw hdot, dropWhile_digits hw hdot]
  rfl

theorem read_of_no_point {whole rest : List Char} (hw : ∀ c ∈ whole, c.isDigit = true)
    (hr : ∀ c ∈ rest.head?, c.isDigit = false ∧ c ≠ '.') :
    read (whole ++ rest) = ⟨whole, false, [], WrittenExponent.read? rest⟩ := by
  have hdigit : NoDigitHead rest := fun c hc => (hr c hc).1
  rw [read, takeWhile_digits hw hdigit, dropWhile_digits hw hdigit]
  split
  · exact absurd rfl (hr '.' rfl).2
  · rfl

theorem whole_read (text : List Char) : (read text).whole = text.takeWhile Char.isDigit := by
  unfold read
  split <;> rfl

/-- The exponent as it is written. -/
def exponentPart (n : Numeral) : List Char := (n.exponent.map WrittenExponent.text).getD []

theorem exponentPart_of_none {n : Numeral} (h : n.exponent = none) : n.exponentPart = [] := by
  rw [exponentPart, h]
  rfl

theorem exponentPart_of_some {n : Numeral} {e : WrittenExponent} (h : n.exponent = some e) :
    n.exponentPart = e.text := by
  rw [exponentPart, h]
  rfl

theorem IsFormed.exponentPart_head {n : Numeral} (h : n.IsFormed) {e : WrittenExponent}
    (he : n.exponent = some e) (rest : List Char) :
    ∀ c ∈ (n.exponentPart ++ rest).head?, c.isDigit = false ∧ c ≠ '.' := by
  intro c hc
  obtain rfl : e.letter = c := by simpa [exponentPart_of_some he, WrittenExponent.text] using hc
  rcases (h.exponent e he).letter with hl | hl <;> rw [hl] <;> decide

theorem read_text_of_point {n : Numeral} (h : n.IsFormed) (hp : n.point = true) (rest : List Char) :
    read (n.text ++ rest) =
      ⟨n.whole, true, (n.fraction ++ (n.exponentPart ++ rest)).takeWhile Char.isDigit,
        WrittenExponent.read? ((n.fraction ++ (n.exponentPart ++ rest)).dropWhile Char.isDigit)⟩ := by
  have ht : n.text ++ rest = n.whole ++ '.' :: (n.fraction ++ (n.exponentPart ++ rest)) := by
    simp [text, exponentPart, hp]
  rw [ht, read_of_point h.whole]

theorem read_text_of_no_point {n : Numeral} (h : n.IsFormed) (hp : n.point = false) {rest : List Char}
    (hr : ∀ c ∈ (n.exponentPart ++ rest).head?, c.isDigit = false ∧ c ≠ '.') :
    read (n.text ++ rest) = ⟨n.whole, false, [], WrittenExponent.read? (n.exponentPart ++ rest)⟩ := by
  have ht : n.text ++ rest = n.whole ++ (n.exponentPart ++ rest) := by simp [text, exponentPart, hp]
  rw [ht, read_of_no_point h.whole hr]

/-- A number is read up to its end. -/
theorem read_text {n : Numeral} (h : n.IsFormed) {rest : List Char}
    (hr : ∀ c ∈ rest.head?, c.isDigit = false ∧ c ≠ '.' ∧ c ≠ 'e' ∧ c ≠ 'E') :
    read (n.text ++ rest) = n := by
  have hexp : WrittenExponent.read? (n.exponentPart ++ rest) = n.exponent := by
    cases he : n.exponent with
    | none =>
        rw [exponentPart_of_none he, List.nil_append]
        exact WrittenExponent.read?_eq_none fun c hc => (hr c hc).2.2
    | some e =>
        rw [exponentPart_of_some he]
        exact WrittenExponent.read?_text (h.exponent e he) fun c hc => (hr c hc).1
  have hhead : ∀ c ∈ (n.exponentPart ++ rest).head?, c.isDigit = false ∧ c ≠ '.' := by
    cases he : n.exponent with
    | none =>
        rw [exponentPart_of_none he, List.nil_append]
        exact fun c hc => ⟨(hr c hc).1, (hr c hc).2.1⟩
    | some e => exact h.exponentPart_head he rest
  cases hp : n.point with
  | false =>
      rw [read_text_of_no_point h hp hhead, hexp, ← hp, ← h.point hp]
  | true =>
      have hdigit : NoDigitHead (n.exponentPart ++ rest) := fun c hc => (hhead c hc).1
      rw [read_text_of_point h hp, takeWhile_digits h.fraction hdigit,
        dropWhile_digits h.fraction hdigit, hexp, ← hp]

theorem IsFormed.eq_of_text {n m : Numeral} (hn : n.IsFormed) (hm : m.IsFormed) (h : n.text = m.text) :
    n = m := by
  have hread := @read_text n hn [] (by simp)
  rw [h, @read_text m hm [] (by simp)] at hread
  exact hread.symm

/-! ## The longest number -/

/-- The longest written number at the start of the text, with or without digits around the point. -/
structure IsLongest (n : Numeral) (text : List Char) : Prop where
  isFormed : n.IsFormed
  starts : n.text <+: text
  longest : ∀ m : Numeral, m.IsFormed → m.text <+: text → m.text.length ≤ n.text.length

/-- Whatever follows a number, it is read at least to its end. -/
theorem length_le_read_append {n : Numeral} (h : n.IsFormed) (rest : List Char) :
    n.text.length ≤ (read (n.text ++ rest)).text.length := by
  cases he : n.exponent with
  | none =>
      cases hp : n.point with
      | false =>
          have ht : n.text = n.whole := by simp [text, hp, he]
          rw [ht, text, whole_read, List.takeWhile_append_of_pos h.whole]
          simp only [List.length_append]
          omega
      | true =>
          rw [read_text_of_point h hp, List.takeWhile_append_of_pos h.fraction]
          simp [text, hp, he]
  | some e =>
      have hhead := h.exponentPart_head he rest
      obtain ⟨e', hread, hle⟩ := WrittenExponent.exists_read?_append (h.exponent e he) rest
      rw [← exponentPart_of_some he] at hread
      cases hp : n.point with
      | false =>
          rw [read_text_of_no_point h hp hhead, hread]
          simpa [text, hp, he] using hle
      | true =>
          have hdigit : NoDigitHead (n.exponentPart ++ rest) := fun c hc => (hhead c hc).1
          rw [read_text_of_point h hp, takeWhile_digits h.fraction hdigit,
            dropWhile_digits h.fraction hdigit, hread]
          simpa [text, hp, he] using hle

theorem IsRead.read_append {n : Numeral} (h : n.IsRead) (rest : List Char) :
    (read (n.text ++ rest)).IsRead := by
  refine ⟨isFormed_read _, ?_⟩
  rintro ⟨hwhole, hfraction⟩
  have hw : n.whole = [] := by
    rw [whole_read, text, List.append_assoc, List.append_assoc,
      List.takeWhile_append_of_pos h.whole] at hwhole
    exact (List.append_eq_nil_iff.mp hwhole).1
  cases hp : n.point with
  | false => exact h.digits_ne_nil ⟨hw, h.point hp⟩
  | true =>
      rw [read_text_of_point h.toIsFormed hp, List.takeWhile_append_of_pos h.fraction] at hfraction
      exact h.digits_ne_nil ⟨hw, (List.append_eq_nil_iff.mp hfraction).1⟩

theorem isLongest_read (text : List Char) : IsLongest (read text) text where
  isFormed := isFormed_read text
  starts := by
    obtain ⟨rest, ht⟩ := text_read text
    exact ⟨rest, ht.symm⟩
  longest m hm hs := by
    obtain ⟨rest, rfl⟩ := hs
    exact length_le_read_append hm rest

theorem IsLongest.eq_read {n : Numeral} {text : List Char} (h : n.IsLongest text) : n = read text := by
  have hr := isLongest_read text
  have hlen : n.text.length = (read text).text.length :=
    Nat.le_antisymm (hr.longest n h.isFormed h.starts) (h.longest _ hr.isFormed hr.starts)
  have ht := (List.prefix_of_prefix_length_le h.starts hr.starts (Nat.le_of_eq hlen)).eq_of_length hlen
  exact h.isFormed.eq_of_text hr.isFormed ht

end Numeral

end DeskCalculator
