import DeskCalculator.Proofs.Decimal.Value
import DeskCalculator.Proofs.Token.Lexer

/-!
# The longest token at each place

The words of the language stand for the tokens. A text is read word by word, each the longest one at
its place, with white space around them, until it ends or no word stands at its place.
-/

namespace DeskCalculator

open Character Binary64 DeskCalculator.Except

/-! ## Names -/

/-- What may follow the first character of a name: parts of names, and points with the first character of
another part behind them. -/
inductive IsNameTail : List Char → Prop
  | nil : IsNameTail []
  | part {c : Char} {tail : List Char} : isNamePart c = true → IsNameTail tail → IsNameTail (c :: tail)
  | point {c : Char} {tail : List Char} :
      isNameStart c = true → IsNameTail tail → IsNameTail ('.' :: c :: tail)

theorem nameTail_of_isNamePart {c : Char} (h : isNamePart c = true) (text : List Char) :
    nameTail (c :: text) = c :: nameTail text := by
  simp [nameTail, h]

theorem nameTail_of_point {c : Char} (h : isNameStart c = true) (text : List Char) :
    nameTail ('.' :: c :: text) = '.' :: c :: nameTail text := by
  rw [nameTail, List.head?_cons, Option.any_some, h,
    nameTail_of_isNamePart (isNamePart_of_isNameStart h)]
  rfl

theorem IsNameTail.behind {c : Char} {tail : List Char} (h : IsNameTail (c :: tail)) (hc : c ≠ '.') :
    IsNameTail tail := by
  cases h with
  | part _ h => exact h
  | point => exact absurd rfl hc

theorem ne_point_of_isNameStart {c : Char} (h : isNameStart c = true) : c ≠ '.' := by
  rintro rfl
  exact absurd h (by decide)

theorem isNameTail_nameTail (text : List Char) : IsNameTail (nameTail text) := by
  induction text with
  | nil => exact .nil
  | cons c text ih =>
      unfold nameTail
      split
      · rename_i hc
        rcases Bool.or_eq_true _ _ ▸ hc with hc | hc
        · exact .part hc ih
        · obtain ⟨hc, hs⟩ := Bool.and_eq_true _ _ ▸ hc
          obtain rfl : c = '.' := beq_iff_eq.mp hc
          cases text with
          | nil => cases hs
          | cons d text =>
              have hs : isNameStart d = true := hs
              rw [nameTail_of_isNamePart (isNamePart_of_isNameStart hs)] at ih ⊢
              exact .point hs (ih.behind (ne_point_of_isNameStart hs))
      · exact .nil

/-- Whatever follows a name, it is read at least to its end. -/
theorem isPrefix_nameTail_append {tail : List Char} (h : IsNameTail tail) (rest : List Char) :
    tail <+: nameTail (tail ++ rest) := by
  induction h with
  | nil => exact List.nil_prefix
  | part hc _ ih =>
      rw [List.cons_append, nameTail_of_isNamePart hc]
      exact List.cons_prefix_cons.mpr ⟨rfl, ih⟩
  | point hc _ ih =>
      rw [List.cons_append, List.cons_append, nameTail_of_point hc]
      exact List.cons_prefix_cons.mpr ⟨rfl, List.cons_prefix_cons.mpr ⟨rfl, ih⟩⟩

/-! ## Words -/

/-- The word stands for the token; a number for the double nearest to it. -/
inductive Token.Written : Token → List Char → Prop
  | opening : Written .opening ['(']
  | closing : Written .closing [')']
  | op (o : Op) : Written (.op o) [o.sign]
  | power : Written .power ['*', '*']
  | name {c : Char} {tail : List Char} : isNameStart c = true → IsNameTail tail →
      Written (.name (String.ofList (c :: tail))) (c :: tail)
  | number {n : Numeral} {bits : Nat} : n.IsRead → IsNearest n.decimal.value bits →
      Written (.number (ofBits false bits)) n.text

theorem Numeral.value?_eq_some {n : Numeral} (h : n.IsRead) {bits : Nat}
    (hb : IsNearest n.decimal.value bits) :
    n.value? = some (ofBits false bits) := by
  have hne := h.digits_ne_nil
  have hbits : bitsOfDecimal n.decimal = bits := hb.unique (Decimal.isNearest_bitsOfDecimal n.decimal)
  rw [Numeral.value?, hbits, if_neg (by simpa using hne)]

namespace Lexeme

/-- What is read is a word for its token. -/
theorem exists_written {c : Char} {text : List Char} {lexeme : Lexeme} (h : read c text = .ok lexeme) :
    ∃ word rest, text = word ++ rest ∧ lexeme.length = word.length + 1 ∧
      lexeme.token.Written (c :: word) := by
  refine exists_word .opening .closing .op .power
    (fun hc text => .name hc (isNameTail_nameTail text)) ?_ h
  intro text x hx
  have hn := Numeral.isRead_read hx
  have hb := Decimal.isNearest_bitsOfDecimal (Numeral.read text).decimal
  obtain rfl := Option.some.inj (hx.symm.trans (Numeral.value?_eq_some hn hb))
  exact .number hn hb

theorem read_number {n : Numeral} (hn : n.IsRead) {bits : Nat} (hb : IsNearest n.decimal.value bits)
    {c : Char} {tail : List Char} (ht : n.text = c :: tail) (hc : c.isDigit = true ∨ c = '.')
    (rest : List Char) :
    ∃ lexeme, read c (tail ++ rest) = .ok lexeme ∧
      (n.text.length < lexeme.length ∨ lexeme = ⟨.number (ofBits false bits), n.text.length⟩) := by
  have htext : n.text ++ rest = c :: (tail ++ rest) := by rw [ht, List.cons_append]
  have hread := hn.read_append rest
  have hlongest := Numeral.isLongest_read (n.text ++ rest)
  have hstart : n.text <+: n.text ++ rest := List.prefix_append _ _
  rcases Nat.lt_or_eq_of_le (hlongest.longest n hn.toIsFormed hstart) with hlt | heq
  · have hx := Numeral.value?_eq_some hread (Decimal.isNearest_bitsOfDecimal _)
    rw [htext] at hx hlt
    exact ⟨_, read_numeral hc hx, .inl hlt⟩
  · -- No number is longer, so this one is read.
    have hn' : n = Numeral.read (c :: (tail ++ rest)) :=
      htext ▸ Numeral.IsLongest.eq_read
        ⟨hn.toIsFormed, hstart, fun m hm hs => heq ▸ hlongest.longest m hm hs⟩
    have hx := Numeral.value?_eq_some hn hb
    rw [hn'] at hx ⊢
    exact ⟨_, read_numeral hc hx, .inr rfl⟩

end Lexeme

theorem isWhiteSpace_of_isNameStart {c : Char} (h : isNameStart c = true) : isWhiteSpace c = false := by
  cases hc : isWhiteSpace c with
  | false => rfl
  | true =>
      have hw := isWord_of_isNamePart (isNamePart_of_isNameStart h)
      simp [isWord_of_isWhiteSpace hc] at hw

/-- At the start of a text every word is read, or a longer one. -/
theorem Token.Written.read {t : Token} {word : List Char} (h : t.Written word) (rest : List Char) :
    ∃ c tail lexeme, word = c :: tail ∧ isWhiteSpace c = false ∧
      Lexeme.read c (tail ++ rest) = .ok lexeme ∧
      (word.length < lexeme.length ∨ lexeme = ⟨t, word.length⟩) := by
  cases h with
  | opening => exact ⟨'(', [], _, rfl, by decide, rfl, .inr rfl⟩
  | closing => exact ⟨')', [], _, rfl, by decide, rfl, .inr rfl⟩
  | power => exact ⟨'*', ['*'], _, rfl, by decide, rfl, .inr rfl⟩
  | op o =>
      cases o with
      | add => exact ⟨'+', [], _, rfl, by decide, rfl, .inr rfl⟩
      | sub => exact ⟨'-', [], _, rfl, by decide, rfl, .inr rfl⟩
      | div => exact ⟨'/', [], _, rfl, by decide, rfl, .inr rfl⟩
      | mul =>
          by_cases hs : rest.head? = some '*'
          · exact ⟨'*', [], ⟨.power, 2⟩, rfl, by decide, if_pos hs, .inl (by decide)⟩
          · exact ⟨'*', [], ⟨.op .mul, 1⟩, rfl, by decide, if_neg hs, .inr rfl⟩
  | @name c tail hc ht =>
      obtain ⟨more, hm⟩ := isPrefix_nameTail_append ht rest
      refine ⟨c, tail, _, rfl, isWhiteSpace_of_isNameStart hc, Lexeme.read_name hc (tail ++ rest), ?_⟩
      rw [← hm]
      cases more with
      | nil => exact .inr (by simp)
      | cons d more => exact .inl (by simp)
  | number hn hb =>
      obtain ⟨c, tail, ht, hc⟩ := hn.head_cases
      obtain ⟨lexeme, hl, hlen⟩ := Lexeme.read_number hn hb ht hc rest
      exact ⟨c, tail, lexeme, ht, (not_start_of_digit c (mem_of_digit_or_point hc)).2, hl, hlen⟩

theorem Token.Written.length_le {t : Token} {word : List Char} (h : t.Written word) {c : Char}
    {text : List Char} {lexeme : Lexeme} (hs : word <+: c :: text)
    (hl : Lexeme.read c text = .ok lexeme) : word.length ≤ lexeme.length := by
  obtain ⟨rest, ht⟩ := hs
  obtain ⟨d, tail, lexeme', rfl, -, hl', hlen⟩ := h.read rest
  rw [List.cons_append] at ht
  obtain ⟨rfl, rfl⟩ := List.cons.inj ht
  obtain rfl := Except.ok.inj (hl'.symm.trans hl)
  rcases hlen with hlt | rfl
  · exact hlt.le
  · exact le_rfl

/-! ## Scanning a text -/

/-- White space and words lead from the text to the rest, each word the longest one at its place; the
words stand for the tokens. -/
inductive Scan : (text : List Char) → List Token → (rest : List Char) → Prop
  | here (text : List Char) : Scan text [] text
  | space {c : Char} {text rest : List Char} {ts : List Token} :
      isWhiteSpace c = true → Scan text ts rest →
      Scan (c :: text) ts rest
  | word {t : Token} {word text rest : List Char} {ts : List Token} : t.Written word →
      (∀ t' word', Token.Written t' word' → word' <+: word ++ text → word'.length ≤ word.length) →
      Scan text ts rest → Scan (word ++ text) (t :: ts) rest

/-- The text goes on with a character that no word starts with, or with a point and no digit. -/
inductive Stuck : (text : List Char) → GrammarFault → Prop
  | character {c : Char} (rest : List Char) :
      isWhiteSpace c = false → (∀ t word, ¬ Token.Written t (c :: word)) →
      Stuck (c :: rest) (.unexpectedCharacter c)
  | point {n : Numeral} {rest : List Char} : NoDigitHead rest → n.IsLongest ('.' :: rest) →
      Stuck ('.' :: rest) (.invalidNumber (String.ofList n.text))

theorem Token.Written.head {t : Token} {c : Char} {word : List Char} (h : t.Written (c :: word)) :
    c ∈ ['(', ')', '+', '-', '*', '/'] ∨ isNameStart c = true ∨ c.isDigit = true ∨ c = '.' := by
  generalize hw : c :: word = text at h
  cases h with
  | opening | closing | power =>
      obtain ⟨rfl, -⟩ := List.cons.inj hw
      decide
  | op o =>
      obtain ⟨rfl, -⟩ := List.cons.inj hw
      cases o <;> decide
  | name hc =>
      obtain ⟨rfl, -⟩ := List.cons.inj hw
      exact .inr (.inl hc)
  | number hn =>
      obtain ⟨d, tail, ht, hd⟩ := hn.head_cases
      obtain ⟨rfl, -⟩ := List.cons.inj (hw.trans ht)
      exact .inr (.inr hd)

theorem Token.exists_written_number {c : Char} (h : c.isDigit = true ∨ c = '.') :
    ∃ t word, Token.Written t (c :: word) := by
  rcases h with h | rfl
  · have hn : Numeral.IsRead ⟨[c], false, [], none⟩ :=
      (Numeral.IsWritten.of_digits (List.cons_ne_nil _ _) (by simpa using h)).isRead
    exact ⟨_, [], .number hn (Decimal.isNearest_bitsOfDecimal _)⟩
  · have hn : Numeral.IsRead ⟨[], true, ['0'], none⟩ :=
      ⟨⟨by simp, forall_mem_of_all (by decide), nofun, nofun⟩, by simp⟩
    exact ⟨_, ['0'], .number hn (Decimal.isNearest_bitsOfDecimal _)⟩

/-- Only a point without a digit behind it starts a number without a value. -/
theorem Numeral.point_of_value?_eq_none {c : Char} {text : List Char} (hc : c.isDigit = true ∨ c = '.')
    (h : (read (c :: text)).value? = none) : c = '.' ∧ NoDigitHead text := by
  have hnil : (read (c :: text)).whole = [] ∧ (read (c :: text)).fraction = [] := by
    by_contra hne
    obtain ⟨x, hx⟩ := IsRead.exists_value ⟨isFormed_read _, hne⟩
    rw [h] at hx
    cases hx
  obtain rfl := hc.resolve_left fun hd => by simp [whole_read, hd] at hnil
  have hread := @read_of_point [] (by simp) text
  rw [List.nil_append] at hread
  refine ⟨rfl, fun d hd => ?_⟩
  obtain ⟨text, rfl⟩ := List.head?_eq_some_iff.mp hd
  rw [hread] at hnil
  cases hdigit : d.isDigit with
  | false => rfl
  | true => simp [hdigit] at hnil

namespace Lexeme

theorem read_error_cases {c : Char} {text : List Char} {fault : GrammarFault}
    (h : read c text = .error fault) :
    (c = '.' ∧ NoDigitHead text ∧
      fault = .invalidNumber (String.ofList (Numeral.read (c :: text)).text)) ∨
      (fault = .unexpectedCharacter c ∧ ∀ t word, ¬ Token.Written t (c :: word)) := by
  unfold read at h
  split at h
  case h_7 =>
    split at h
    · cases h
    rename_i hs
    split at h
    · rename_i hd
      simp only at h
      split at h
      · cases h
      · rename_i hx
        obtain rfl := Except.error.inj h
        obtain ⟨rfl, htext⟩ := Numeral.point_of_value?_eq_none (by simpa using hd) hx
        exact .inl ⟨rfl, htext, rfl⟩
    · rename_i hd
      obtain rfl := Except.error.inj h
      refine .inr ⟨rfl, fun t word hw => ?_⟩
      have hd : ¬ (c.isDigit = true ∨ c = '.') := by simpa using hd
      rcases hw.head with hmark | hname | hnumber
      · simp_all
      · exact hs hname
      · exact hd hnumber
  case h_5 => split at h <;> cases h
  all_goals cases h

end Lexeme

theorem Stuck.tokens {text : List Char} {fault : GrammarFault} (h : Stuck text fault) :
    tokens text = .error fault := by
  cases h with
  | @character c rest hc hn =>
      cases hl : Lexeme.read c rest with
      | ok lexeme =>
          obtain ⟨word, -, -, -, hw⟩ := Lexeme.exists_written hl
          exact absurd hw (hn _ _)
      | error fault =>
          rcases Lexeme.read_error_cases hl with ⟨rfl, -, -⟩ | ⟨rfl, -⟩
          · obtain ⟨t, word, hw⟩ := Token.exists_written_number (.inr rfl)
            exact absurd hw (hn t word)
          · rw [tokens_cons hc, hl]
            rfl
  | @point n rest hd hn =>
      obtain rfl := hn.eq_read
      have hx : (Numeral.read ('.' :: rest)).value? = none := by
        have := @Numeral.read_of_point [] (by simp) rest
        rw [List.nil_append, hd.takeWhile] at this
        rw [this]
        rfl
      have hl : Lexeme.read '.' rest =
          .error (.invalidNumber (String.ofList (Numeral.read ('.' :: rest)).text)) := by
        simp [Lexeme.read, isNameStart, hx]
      rw [tokens_cons (by decide), hl]
      rfl

theorem Scan.tokens {text rest : List Char} {ts : List Token} (h : Scan text ts rest) :
    tokens text = (do return ts ++ (← tokens rest)) := by
  induction h with
  | here text => simp
  | space hc _ ih => rw [tokens_space hc, ih]
  | @word t word text rest ts hw hlongest _ ih =>
      obtain ⟨c, tail, lexeme, rfl, hc, hl, hlen⟩ := hw.read text
      obtain ⟨read, after, ht, hread, hw'⟩ := Lexeme.exists_written hl
      have hle : lexeme.length ≤ (c :: tail).length := by
        rw [hread]
        exact hlongest _ _ hw' ⟨after, by rw [List.cons_append, List.cons_append, ht]⟩
      obtain rfl := hlen.resolve_left (Nat.not_lt.mpr hle)
      rw [List.cons_append, tokens_lexeme hc hl, ih]
      simp

theorem Scan.tokens_eq_ok {text : List Char} {ts : List Token} (h : Scan text ts []) :
    DeskCalculator.tokens text = .ok ts := by
  simpa using h.tokens

theorem Scan.tokens_eq_error {text rest : List Char} {ts : List Token} {fault : GrammarFault}
    (h : Scan text ts rest) (hf : Stuck rest fault) : DeskCalculator.tokens text = .error fault := by
  rw [h.tokens, hf.tokens]
  rfl

/-- A text is scanned to its end, or to a place where the scan is stuck. -/
theorem exists_scan (text : List Char) :
    ∃ ts rest, Scan text ts rest ∧ (rest = [] ∨ ∃ fault, Stuck rest fault) := by
  induction hn : text.length using Nat.strongRecOn generalizing text with
  | _ n ih =>
      cases text with
      | nil => exact ⟨[], [], .here [], .inl rfl⟩
      | cons c text =>
          cases hc : isWhiteSpace c with
          | true =>
              obtain ⟨ts, rest, hs, hend⟩ := ih text.length (by simp [← hn]) text rfl
              exact ⟨ts, rest, .space hc hs, hend⟩
          | false =>
              cases hl : Lexeme.read c text with
              | error fault =>
                  refine ⟨[], c :: text, .here _, .inr ⟨fault, ?_⟩⟩
                  rcases Lexeme.read_error_cases hl with ⟨rfl, hd, rfl⟩ | ⟨rfl, hn⟩
                  · exact .point hd (Numeral.isLongest_read _)
                  · exact .character text hc hn
              | ok lexeme =>
                  obtain ⟨word, text, rfl, hlen, hw⟩ := Lexeme.exists_written hl
                  obtain ⟨ts, rest, hs, hend⟩ := ih text.length
                    (by simp only [← hn, List.length_cons, List.length_append]; omega) text rfl
                  refine ⟨lexeme.token :: ts, rest, .word hw (fun t' word' hw' hs' => ?_) hs, hend⟩
                  exact (hw'.length_le hs' hl).trans_eq hlen

theorem Scan.of_tokens {text : List Char} {ts : List Token} (h : DeskCalculator.tokens text = .ok ts) :
    Scan text ts [] := by
  obtain ⟨us, rest, hs, rfl | ⟨fault, hf⟩⟩ := exists_scan text
  · obtain rfl := Except.ok.inj (h.symm.trans hs.tokens_eq_ok)
    exact hs
  · cases h.symm.trans (hs.tokens_eq_error hf)

theorem exists_stuck_of_tokens {text : List Char} {fault : GrammarFault}
    (h : tokens text = .error fault) :
    ∃ ts rest, Scan text ts rest ∧ Stuck rest fault := by
  obtain ⟨ts, rest, hs, rfl | ⟨fault', hf⟩⟩ := exists_scan text
  · cases h.symm.trans hs.tokens_eq_ok
  · obtain rfl := Except.error.inj (h.symm.trans (hs.tokens_eq_error hf))
    exact ⟨ts, rest, hs, hf⟩

/-- A text has the tokens that its longest words stand for, and none if the scan gets stuck before its
end; the fault says where. -/
theorem tokens_eq_iff_scan (text : List Char) : (∀ ts, tokens text = .ok ts ↔ Scan text ts []) ∧
    (∀ fault, tokens text = .error fault ↔ ∃ ts rest, Scan text ts rest ∧ Stuck rest fault) :=
  ⟨fun _ => ⟨Scan.of_tokens, Scan.tokens_eq_ok⟩,
    fun _ => ⟨exists_stuck_of_tokens, fun ⟨_, _, hs, hf⟩ => hs.tokens_eq_error hf⟩⟩

end DeskCalculator
