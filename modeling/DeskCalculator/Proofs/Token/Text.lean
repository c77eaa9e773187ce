import DeskCalculator.Proofs.Binary64.Bits
import DeskCalculator.Proofs.Decimal.Layout
import DeskCalculator.Proofs.Decimal.Shortest
import DeskCalculator.Proofs.Token.LongestMatch

/-!
# White space between tokens

White space ends a token wherever it stands. So tokens are read back from their texts with blanks
between them, if each one is read back from its own text. Of the tokens that a text can have, only an
infinite number is not: its text is a name.
-/

namespace DeskCalculator

open Character Binary64 DeskCalculator.Except

/-! ## White space -/

theorem splits_of_isWhiteSpace {c : Char} (h : isWhiteSpace c = true) (text rest : List Char) :
    Splits text (c :: rest) := by
  refine .of_mark ⟨fun hm => ?_, ?_⟩
  · have hall : ∀ d ∈ '*' :: numeralSigns, isWhiteSpace d = false := forall_mem_of_all (by decide)
    simp [hall c hm] at h
  · cases hp : isNamePart c with
    | false => rfl
    | true => exact absurd (isWord_of_isNamePart hp) (by simp [isWord_of_isWhiteSpace h])

/-- A text has the tokens before its white space and then those behind it, or the fault of the first side
that has one. -/
theorem tokens_around_space {c : Char} (h : isWhiteSpace c = true) (text rest : List Char) :
    tokens (text ++ c :: rest) = match tokens text, tokens rest with
      | .ok ts, .ok us => .ok (ts ++ us)
      | .error fault, _ => .error fault
      | .ok _, .error fault => .error fault := by
  rw [tokens_append (splits_of_isWhiteSpace h text rest), tokens_space h]
  cases tokens text <;> cases tokens rest <;> rfl

/-- A no-break space keeps the letter and the digit apart from the number before them. -/
theorem tokens_around_noBreakSpace : isWhiteSpace '\u00A0' = true ∧
    tokens ("2e".toList ++ '\u00A0' :: "5".toList) = .ok [.number 2, .name "e", .number 5] := by
  have h : isWhiteSpace '\u00A0' = true := by decide
  refine ⟨h, (tokens_around_space h "2e".toList "5".toList).trans ?_⟩
  decide +kernel

/-! ## Texts of single tokens -/

theorem Token.Written.tokens {t : Token} {word : List Char} (h : t.Written word) :
    tokens word = .ok [t] := by
  have hs : Scan (word ++ []) [t] [] := .word h (fun _ _ _ hs => by simpa using hs.length_le) (.here [])
  simpa using hs.tokens_eq_ok

theorem Scan.exists_written {text rest : List Char} {ts : List Token} (h : Scan text ts rest) :
    ∀ t ∈ ts, ∃ word, t.Written word := by
  induction h with
  | here text => simp
  | space _ _ ih => exact ih
  | word hw _ _ ih => exact List.forall_mem_cons.mpr ⟨⟨_, hw⟩, ih⟩

theorem Token.Written.of_writes {text : List Char} {q : ℚ} {bits : Nat} (h : Decimal.Writes text q)
    (hb : IsNearest q bits) : (Token.number (ofBits false bits)).Written text := by
  obtain ⟨n, hn, rfl, rfl⟩ := h
  exact .number hn.isRead hb

/-- The text of a finite number stands for it. -/
theorem Token.written_numberText {bits : Nat} (h : bits < infinity) :
    (Token.number (ofBits false bits)).Written (numberText (ofBits false bits)).toList := by
  have hb := @magnitudeBits_ofBits false bits h.le
  have hn := @isNegative_ofBits false bits h.le
  rw [numberText, hb, hn]
  simp only [if_neg (Nat.not_lt.mpr h.le), if_neg h.ne, Bool.false_eq_true, if_false,
    String.empty_append]
  split_ifs with h0
  · -- Zero has no shortest digits of its own: it is written as the digits of a whole number.
    subst h0
    have hzero := isNearest_magnitude (Nat.zero_le infinity)
    rw [magnitude_zero] at hzero
    exact .of_writes (Decimal.writes_toDigits 0) (by exact_mod_cast hzero)
  · have hnear := Decimal.isNearest_bitsOfDecimal (Decimal.shortest bits)
    rw [Decimal.bitsOfDecimal_shortest h.le] at hnear
    rw [String.toList_ofList]
    exact .of_writes (Decimal.writes_plain _) hnear

theorem numberText_infinity : numberText (ofBits false infinity) = "inf" := by
  rw [numberText, magnitudeBits_ofBits le_rfl, isNegative_ofBits le_rfl]
  rfl

namespace Token

/-- What the text of a token is read as: an infinite number looks like a name. -/
def seen : Token → Token
  | number x => if x.isFinite = true then number x else .name "inf"
  | t => t

theorem Written.tokens_text {t : Token} {word : List Char} (h : t.Written word) :
    DeskCalculator.tokens t.text.toList = .ok [t.seen] := by
  cases h with
  | opening => exact Written.opening.tokens
  | closing => exact Written.closing.tokens
  | power => exact Written.power.tokens
  | op o =>
      cases o with
      | add => exact (Written.op .add).tokens
      | sub => exact (Written.op .sub).tokens
      | mul => exact (Written.op .mul).tokens
      | div => exact (Written.op .div).tokens
  | name hc ht => simpa [text, seen] using (Written.name hc ht).tokens
  | @number n bits hn hb =>
      rcases hb.1.lt_or_eq with hlt | rfl
      · have hf : (ofBits false bits).isFinite = true := by simp [isFinite_ofBits hb.1, hlt.ne]
        rw [seen, if_pos hf]
        exact (written_numberText hlt).tokens
      · -- Digits beyond the largest double are a token, but no text of digits comes back.
        have hf : (ofBits false infinity).isFinite = false := by simp [isFinite_ofBits hb.1]
        simp only [seen, hf, text, numberText_infinity]
        decide

end Token

/-! ## Texts of lists -/

/-- Blanks keep the texts of tokens apart. -/
theorem tokens_listText {ts : List Token} (h : ∀ t ∈ ts, tokens t.text.toList = .ok [t.seen]) :
    tokens (Token.listText ts).toList = .ok (ts.map Token.seen) := by
  induction ts with
  | nil => rfl
  | cons t ts ih =>
      obtain ⟨ht, hts⟩ := List.forall_mem_cons.mp h
      cases ts with
      | nil => simpa [Token.listText] using ht
      | cons u ts =>
          have hlist : (Token.listText (t :: u :: ts)).toList =
              t.text.toList ++ ' ' :: (Token.listText (u :: ts)).toList := by
            simp [Token.listText, String.intercalate_cons_cons]
          rw [hlist, tokens_append (splits_of_isWhiteSpace (by decide) _ _), tokens_space (by decide),
            ht, ih hts]
          rfl

theorem Token.seen_eq_self_iff {t : Token} : t.seen = t ↔ ∀ x, t = .number x → x.isFinite = true := by
  cases t with
  | number x =>
      cases hx : x.isFinite <;> simp [seen, hx]
  | _ => simp [seen]

/-- The tokens of a text are read again from their text just if all numbers among them are finite. -/
theorem tokens_listText_eq_iff {text : List Char} {ts : List Token} (h : tokens text = .ok ts) :
    tokens (Token.listText ts).toList = .ok ts ↔ ∀ x, .number x ∈ ts → x.isFinite = true := by
  have hread : tokens (Token.listText ts).toList = .ok (ts.map Token.seen) :=
    tokens_listText fun t ht => by
      obtain ⟨word, hw⟩ := (Scan.of_tokens h).exists_written t ht
      exact hw.tokens_text
  have hseen : ts.map Token.seen = ts ↔ ∀ t ∈ ts, t.seen = t := by
    simpa using @List.map_inj_left _ _ ts Token.seen id
  rw [hread, Except.ok.injEq, hseen]
  simp only [Token.seen_eq_self_iff]
  exact ⟨fun hf x hx => hf _ hx x rfl, fun hf t ht x hx => hf x (hx ▸ ht)⟩

/-- A number with an exponent is read again from its digits. -/
theorem tokens_listText_of_exponent :
    tokens "(2e3+.5)**math.pi".toList =
      .ok [.opening, .number 2000, .op .add, .number 0.5, .closing, .power, .name "math.pi"] ∧
      tokens "( 2000 + 0.5 ) ** math.pi".toList = tokens "(2e3+.5)**math.pi".toList := by
  have h : tokens "(2e3+.5)**math.pi".toList =
      .ok [.opening, .number 2000, .op .add, .number 0.5, .closing, .power, .name "math.pi"] := by
    decide +kernel
  have htext : "( 2000 + 0.5 ) ** math.pi" =
      Token.listText [.opening, .number 2000, .op .add, .number 0.5, .closing, .power,
        .name "math.pi"] := by decide +kernel
  refine ⟨h, ?_⟩
  rw [htext, h]
  refine (tokens_listText_eq_iff h).mpr fun x hx => ?_
  have hx : x = 2000 ∨ x = 0.5 := by simpa using hx
  rcases hx with rfl | rfl <;> decide +kernel

end DeskCalculator
