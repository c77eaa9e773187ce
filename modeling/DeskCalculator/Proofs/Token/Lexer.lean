import DeskCalculator.Proofs.Character
import DeskCalculator.Proofs.Except
import DeskCalculator.Proofs.Numeral
import DeskCalculator.Token.Lexer

/-!
# Tokens of a longer text

A text is put together from the words of its tokens, and so has their parentheses. Where nothing goes on
with the token before it, as at a closing parenthesis, the tokens of both parts do not depend on each
other.
-/

namespace DeskCalculator

open Character Parenthesis DeskCalculator.Except

/-! ## Names -/

/-- The text does not go on with a part of a name. -/
def NoNameHead (rest : List Char) : Prop := ∀ c ∈ rest.head?, isNamePart c = false ∧ c ≠ '.'

theorem isNamePart_of_isNameStart {c : Char} (h : isNameStart c = true) : isNamePart c = true := by
  simp only [isNameStart, isNamePart, Char.isAlphanum, Bool.or_eq_true] at h ⊢
  rcases h with h | h
  · exact .inl (.inl h)
  · exact .inr h

theorem isWord_of_isNamePart {c : Char} (h : isNamePart c = true) : isWord c = true := by
  rcases Bool.or_eq_true _ _ ▸ h with h | h
  · exact isWord_of_isAlphanum h
  · simp [isWord, h]

theorem nameTail_append (word : List Char) {rest : List Char} (hr : NoNameHead rest) :
    nameTail (word ++ rest) = nameTail word := by
  have hstart : rest.head?.any isNameStart = false := by
    cases rest with
    | nil => rfl
    | cons c rest =>
        cases hs : isNameStart c with
        | false => simp [hs]
        | true =>
            have := (hr c (by simp)).1
            simp [isNamePart_of_isNameStart hs] at this
  induction word with
  | nil =>
      cases rest with
      | nil => rfl
      | cons c rest =>
          obtain ⟨hp, hd⟩ := hr c (by simp)
          simp [nameTail, hp, hd]
  | cons c word ih =>
      cases word with
      | nil =>
          simp only [List.nil_append] at ih
          simp [nameTail, hstart, ih]
      | cons d word =>
          have hn : nameTail (d :: (word ++ rest)) = nameTail (d :: word) := ih
          show nameTail (c :: d :: (word ++ rest)) = nameTail (c :: d :: word)
          rw [nameTail, hn, nameTail]
          rfl

theorem nameTail_append_of_last {word rest : List Char}
    (h : ∃ c ∈ word.getLast?, isNamePart c = false ∧ c ≠ '.') :
    nameTail (word ++ rest) = nameTail word := by
  obtain ⟨c, hl, hp, hdot⟩ := h
  induction word with
  | nil => cases hl
  | cons d word ih =>
      cases word with
      | nil =>
          obtain rfl : d = c := by simpa using hl
          simp [nameTail, hp, hdot]
      | cons e word =>
          have hn : nameTail (e :: (word ++ rest)) = nameTail (e :: word) := ih (by simpa using hl)
          show nameTail (d :: e :: (word ++ rest)) = nameTail (d :: e :: word)
          rw [nameTail, hn, nameTail]
          rfl

theorem exists_nameTail (text : List Char) : ∃ rest, text = nameTail text ++ rest := by
  induction text with
  | nil => exact ⟨[], rfl⟩
  | cons c text ih =>
      unfold nameTail
      split
      · obtain ⟨rest, ht⟩ := ih
        exact ⟨rest, by rw [List.cons_append, ← ht]⟩
      · exact ⟨c :: text, rfl⟩

theorem mem_nameTail {text : List Char} : ∀ c ∈ nameTail text, isNamePart c = true ∨ c = '.' := by
  induction text with
  | nil => simp [nameTail]
  | cons c text ih =>
      unfold nameTail
      split
      · rename_i hc
        intro d hd
        rcases List.mem_cons.mp hd with rfl | hd
        · simp only [Bool.or_eq_true, Bool.and_eq_true, beq_iff_eq] at hc
          exact hc.imp_right And.left
        · exact ih d hd
      · simp

/-- A name does not end with a point. -/
theorem getLast?_nameTail {text : List Char} : ∀ c ∈ (nameTail text).getLast?, isNamePart c = true := by
  induction text with
  | nil => simp [nameTail]
  | cons c text ih =>
      unfold nameTail
      split
      · rename_i hc
        intro d hd
        rw [List.getLast?_cons] at hd
        cases hl : (nameTail text).getLast? with
        | some e =>
            obtain rfl : e = d := by simpa [hl] using hd
            exact ih e hl
        | none =>
            obtain rfl : c = d := by simpa [hl] using hd
            have hnil : nameTail text = [] := List.getLast?_eq_none_iff.mp hl
            rcases Bool.or_eq_true _ _ ▸ hc with hc | hc
            · exact hc
            · -- The part of a name that must follow a point is there.
              cases text with
              | nil => simp at hc
              | cons e text =>
                  have he : isNamePart e = true :=
                    isNamePart_of_isNameStart (by simpa using (Bool.and_eq_true _ _ ▸ hc).2)
                  simp [nameTail, he] at hnil
      · simp

/-! ## Where a text splits -/

/-- No token lies across the place between the two texts. -/
structure Splits (text rest : List Char) : Prop where
  head : ∀ c ∈ rest.head?, c ∉ '*' :: numeralSigns
  name : (∀ c ∈ rest.head?, isNamePart c = false) ∨ ∀ c ∈ text.getLast?, isNamePart c = false ∧ c ≠ '.'

namespace Splits

variable {text rest : List Char}

theorem of_mark {c : Char} (h : c ∉ '*' :: numeralSigns ∧ isNamePart c = false) :
    Splits text (c :: rest) where
  head := by simpa using h.1
  name := .inl (by simpa using h.2)

theorem noNumeralHead (h : Splits text rest) : NoNumeralHead rest :=
  fun c hc hs => h.head c hc (List.mem_cons_of_mem _ hs)

theorem behind {text : List Char} (word : List Char) (h : Splits (word ++ text) rest) :
    Splits text rest where
  head := h.head
  name := h.name.imp_right fun hl c hc => hl c (by rw [List.getLast?_append, hc]; rfl)

theorem nameTail {c : Char} (h : Splits (c :: text) rest) (hc : isNameStart c = true) :
    nameTail (text ++ rest) = nameTail text := by
  rcases h.name with hr | hl
  · refine nameTail_append text fun d hd => ⟨hr d hd, ?_⟩
    rintro rfl
    exact h.head '.' hd (by decide)
  · refine nameTail_append_of_last ?_
    cases ht : text.getLast? with
    | some d => exact ⟨d, rfl, hl d (by simp [List.getLast?_cons, ht])⟩
    | none =>
        have := (hl c (by simp [List.getLast?_cons, ht])).1
        simp [isNamePart_of_isNameStart hc] at this

end Splits

/-! ## Words of tokens -/

/-- The sign of an operator in a canonical text. -/
def Op.sign : Op → Char
  | .add => '+'
  | .sub => '-'
  | .mul => '*'
  | .div => '/'

/-- The word may stand for the token in a text. -/
inductive Token.Spelled : Token → List Char → Prop
  | opening : Spelled .opening ['(']
  | closing : Spelled .closing [')']
  | op (o : Op) : Spelled (.op o) [o.sign]
  | power : Spelled .power ['*', '*']
  | name {word : List Char} : (∀ c ∈ word, isNamePart c = true ∨ c = '.') →
      (∃ c, word.getLast? = some c ∧ isNamePart c = true) → Spelled (.name (String.ofList word)) word
  | number {x : Float} {word : List Char} : (∀ c ∈ word, c ∈ numeralSigns) → Spelled (.number x) word

/-- The parentheses of a word are those of its token. -/
theorem Token.Spelled.parentheses {t : Token} {word : List Char} (h : t.Spelled word) :
    ofText word = (ofToken? t).toList := by
  cases h with
  | opening | closing | power => rfl
  | op o => cases o <;> rfl
  | name hw _ =>
      refine ofText_eq_nil_iff.mpr fun c hc => ?_
      refine ⟨?_, ?_⟩ <;> rintro rfl <;> exact absurd (hw _ hc) (by decide)
  | number hw => exact ofText_numeralSigns hw

/-! ## Lexemes -/

namespace Lexeme

theorem read_append {c : Char} {text rest : List Char} (h : Splits (c :: text) rest) :
    read c (text ++ rest) = read c text := by
  have hnum : Numeral.read (c :: (text ++ rest)) = Numeral.read (c :: text) :=
    Numeral.read_append (c :: text) h.noNumeralHead
  have hstar : ((text ++ rest).head? = some '*') = (text.head? = some '*') := by
    cases text with
    | cons d text => rfl
    | nil =>
        have hne : rest.head? ≠ some '*' := fun hs => h.head '*' hs (by simp)
        simp [hne]
  have hname : isNameStart c = true → nameTail (text ++ rest) = nameTail text := fun hc => h.nameTail hc
  unfold read
  simp only [hstar, hnum]
  cases hc : isNameStart c with
  | false => rfl
  | true => rw [hname hc]

theorem spelled_name {c : Char} (hc : isNameStart c = true) (text : List Char) :
    (Token.name (String.ofList (c :: nameTail text))).Spelled (c :: nameTail text) := by
  have hpart := isNamePart_of_isNameStart hc
  refine .name ?_ ?_
  · rintro d (_ | ⟨_, hd⟩)
    · exact .inl hpart
    · exact mem_nameTail d hd
  · rw [List.getLast?_cons]
    cases hl : (nameTail text).getLast? with
    | none => exact ⟨c, rfl, hpart⟩
    | some d => exact ⟨d, rfl, getLast?_nameTail d hl⟩

theorem spelled_number {text : List Char} {x : Float} (_ : (Numeral.read text).value? = some x) :
    (Token.number x).Spelled (Numeral.read text).text :=
  .number (Numeral.isFormed_read text).numeralSign

/-- What is read is the start of the text, and one of the words of the language. -/
theorem exists_word {P : Token → List Char → Prop} (opening : P .opening ['('])
    (closing : P .closing [')']) (op : ∀ o : Op, P (.op o) [o.sign]) (power : P .power ['*', '*'])
    (name : ∀ {c : Char}, isNameStart c = true →
      ∀ text, P (.name (String.ofList (c :: nameTail text))) (c :: nameTail text))
    (number : ∀ {text : List Char} {x : Float}, (Numeral.read text).value? = some x →
      P (.number x) (Numeral.read text).text)
    {c : Char} {text : List Char} {lexeme : Lexeme} (h : read c text = .ok lexeme) :
    ∃ word rest, text = word ++ rest ∧ lexeme.length = word.length + 1 ∧ P lexeme.token (c :: word) := by
  have sign {t : Token} (h : Except.ok (⟨t, 1⟩ : Lexeme) = (.ok lexeme : Except GrammarFault Lexeme))
      (ht : P t [c]) :
      ∃ word rest, text = word ++ rest ∧ lexeme.length = word.length + 1 ∧
      P lexeme.token (c :: word) := by
    obtain rfl := Except.ok.inj h
    exact ⟨[], text, rfl, rfl, ht⟩
  unfold read at h
  split at h
  · exact sign h opening
  · exact sign h closing
  · exact sign h (op .add)
  · exact sign h (op .sub)
  · split at h
    · rename_i hs
      obtain rfl := Except.ok.inj h
      obtain ⟨text, rfl⟩ := List.head?_eq_some_iff.mp hs
      exact ⟨['*'], text, rfl, rfl, power⟩
    · exact sign h (op .mul)
  · exact sign h (op .div)
  · split at h
    · rename_i hc
      obtain rfl := Except.ok.inj h
      obtain ⟨rest, ht⟩ := exists_nameTail text
      exact ⟨nameTail text, rest, ht, rfl, name hc text⟩
    split at h
    · simp only at h
      split at h
      · rename_i x hx
        obtain rfl := Except.ok.inj h
        have hw := number hx
        obtain ⟨rest, ht⟩ := Numeral.text_read (c :: text)
        obtain ⟨d, word, hn⟩ := List.exists_cons_of_ne_nil (Numeral.text_read_ne_nil hx)
        rw [hn] at ht hw
        obtain ⟨rfl, ht'⟩ := List.cons.inj ht
        exact ⟨word, rest, ht', by simp [hn], hw⟩
      · cases h
    · cases h

theorem exists_spelled {c : Char} {text : List Char} {lexeme : Lexeme} (h : read c text = .ok lexeme) :
    ∃ word rest, text = word ++ rest ∧ lexeme.length = word.length + 1 ∧
      lexeme.token.Spelled (c :: word) :=
  exists_word .opening .closing .op .power spelled_name spelled_number h

theorem numeral_of_read {c : Char} {text : List Char} {x : Float} {length : Nat}
    (h : read c text = .ok ⟨.number x, length⟩) :
    (Numeral.read (c :: text)).value? = some x ∧ length = (Numeral.read (c :: text)).text.length := by
  unfold read at h
  split at h
  case h_7 =>
    split at h
    · cases h
    split at h
    · simp only at h
      split at h
      · rename_i y hy
        cases h
        exact ⟨hy, rfl⟩
      · cases h
    · cases h
  case h_5 => split at h <;> cases h
  all_goals cases h

end Lexeme

/-! ## All tokens -/

theorem tokensFrom_length (word rest : List Char) :
    tokensFrom word.length (word ++ rest) = tokensFrom 0 rest := by
  induction word with
  | nil => rfl
  | cons c word ih => exact ih

@[simp] theorem tokens_nil : tokens [] = .ok [] := rfl

theorem tokens_space {c : Char} (hc : isWhiteSpace c = true) (text : List Char) :
    tokens (c :: text) = tokens text := by
  simp [tokens, tokensFrom, hc]

theorem tokens_blank {blank : List Char} (h : ∀ c ∈ blank, isWhiteSpace c = true) (text : List Char) :
    tokens (blank ++ text) = tokens text := by
  induction blank with
  | nil => rfl
  | cons c blank ih =>
      rw [List.cons_append, tokens_space (h c (by simp)), ih fun d hd => h d (by simp [hd])]

theorem tokens_cons {c : Char} (hc : isWhiteSpace c = false) (text : List Char) :
    tokens (c :: text) = (do
      let lexeme ← Lexeme.read c text
      let ts ← tokensFrom (lexeme.length - 1) text
      return lexeme.token :: ts) := by
  simp [tokens, tokensFrom, hc]

theorem tokens_lexeme {c : Char} {word rest : List Char} {t : Token} (hc : isWhiteSpace c = false)
    (h : Lexeme.read c (word ++ rest) = .ok ⟨t, word.length + 1⟩) :
    tokens (c :: (word ++ rest)) = (do return t :: (← tokens rest)) := by
  rw [tokens_cons hc, h]
  simp [tokensFrom_length, tokens]

theorem tokens_eq_nil_iff {text : List Char} :
    tokens text = .ok [] ↔ ∀ c ∈ text, isWhiteSpace c = true := by
  induction text with
  | nil => simp
  | cons c text ih =>
      rw [List.forall_mem_cons]
      cases hc : isWhiteSpace c with
      | true => simpa [tokens_space hc] using ih
      | false => simp [tokens_cons hc, bind_eq_ok_iff]

/-- The text is put together from words of the tokens, with white space before, between and behind them. -/
inductive Lexed : List Char → List Token → Prop
  | nil : Lexed [] []
  | space {c : Char} {text : List Char} {ts : List Token} :
      isWhiteSpace c = true → Lexed text ts → Lexed (c :: text) ts
  | word {t : Token} {word rest : List Char} {ts : List Token} : t.Spelled word → Lexed rest ts →
      Lexed (word ++ rest) (t :: ts)

theorem lexed_of_tokens {text : List Char} {ts : List Token} (h : tokens text = .ok ts) :
    Lexed text ts := by
  induction hn : text.length using Nat.strongRecOn generalizing text ts with
  | _ n ih =>
      cases text with
      | nil =>
          obtain rfl := Except.ok.inj h
          exact .nil
      | cons c text =>
          cases hc : isWhiteSpace c with
          | true =>
              rw [tokens_space hc] at h
              exact .space hc (ih text.length (by simp [← hn]) h rfl)
          | false =>
              rw [tokens_cons hc] at h
              simp only [bind_eq_ok_iff, pure_eq, Except.ok.injEq] at h
              obtain ⟨lexeme, hl, us, hu, rfl⟩ := h
              obtain ⟨word, rest, rfl, hlen, hw⟩ := Lexeme.exists_spelled hl
              rw [hlen, Nat.add_sub_cancel, tokensFrom_length] at hu
              exact .word hw (ih rest.length
                (by simp only [← hn, List.length_cons, List.length_append]; omega) hu rfl)

theorem ofTokens_tokens {text : List Char} {ts : List Token} (h : tokens text = .ok ts) :
    ofTokens ts = ofText text := by
  replace h := lexed_of_tokens h
  induction h with
  | nil => rfl
  | space hc _ ih =>
      have hno : ∀ c, isWhiteSpace c = true → c ≠ '(' ∧ c ≠ ')' := by
        intro c hc
        refine ⟨?_, ?_⟩ <;> rintro rfl <;> exact absurd hc (by decide)
      rw [ofText_other (hno _ hc).1 (hno _ hc).2]
      exact ih
  | @word t word rest ts hw _ ih =>
      rw [ofText_append, hw.parentheses, ← ih]
      cases hp : ofToken? t <;> simp [ofTokens, hp]

/-- The tokens of a text that splits are those of its two parts. -/
theorem tokens_append {text rest : List Char} (h : Splits text rest) : tokens (text ++ rest) = (do
    let ts ← tokens text
    let us ← tokens rest
    return ts ++ us) := by
  induction hn : text.length using Nat.strongRecOn generalizing text with
  | _ n ih =>
      cases text with
      | nil => simp
      | cons c text =>
          cases hc : isWhiteSpace c with
          | true =>
              rw [List.cons_append, tokens_space hc, tokens_space hc]
              exact ih text.length (by simp [← hn]) (h.behind [c]) rfl
          | false =>
              rw [List.cons_append, tokens_cons hc, tokens_cons hc, Lexeme.read_append h]
              cases hl : Lexeme.read c text with
              | error fault => rfl
              | ok lexeme =>
                  obtain ⟨word, after, rfl, hlen, -⟩ := Lexeme.exists_spelled hl
                  have :=
                    ih after.length (by simp only [← hn, List.length_cons, List.length_append]; omega)
                    (h.behind (c :: word)) rfl
                  simp only [tokens] at this
                  simp [hlen, tokensFrom_length, tokens, this]

theorem tokens_opening (rest : List Char) :
    tokens ('(' :: rest) = (do return .opening :: (← tokens rest)) :=
  @tokens_lexeme '(' [] rest .opening (by decide) rfl

/-- A closing parenthesis ends the tokens before it. -/
theorem tokens_closing (text rest : List Char) : tokens (text ++ ')' :: rest) = (do
    let ts ← tokens text
    let us ← tokens rest
    return ts ++ .closing :: us) := by
  have hc : tokens (')' :: rest) = (do return .closing :: (← tokens rest)) :=
    @tokens_lexeme ')' [] rest .closing (by decide) rfl
  rw [tokens_append (.of_mark (by decide)), hc]
  simp

/-! ## Single tokens -/

/-- The whole text is one name. -/
def isName : List Char → Bool
  | [] => false
  | c :: word => isNameStart c && !isWhiteSpace c && nameTail word == word

theorem Lexeme.read_name {c : Char} (hc : isNameStart c = true) (text : List Char) :
    read c text = .ok ⟨.name (String.ofList (c :: nameTail text)), (nameTail text).length + 1⟩ := by
  unfold read
  split <;> first | exact absurd hc (by decide) | simp [hc]

theorem tokens_name {n : String} (hn : isName n.toList = true) {rest : List Char}
    (hr : NoNameHead rest) :
    tokens (n.toList ++ rest) = (do return .name n :: (← tokens rest)) := by
  cases hc : n.toList with
  | nil => simp [hc, isName] at hn
  | cons c word =>
      simp only [hc, isName, Bool.and_eq_true, Bool.not_eq_true', beq_iff_eq] at hn
      obtain ⟨⟨hs, hw⟩, ht⟩ := hn
      have hl := Lexeme.read_name hs (word ++ rest)
      have hname : String.ofList (c :: word) = n := by rw [← hc, String.ofList_toList]
      rw [nameTail_append word hr, ht, hname] at hl
      exact tokens_lexeme hw hl

theorem not_start_of_digit : ∀ c ∈ '.' :: asciiDigits, isNameStart c = false ∧ isWhiteSpace c = false :=
  forall_mem_of_all (by decide)

theorem mem_of_digit_or_point {c : Char} (hc : c.isDigit = true ∨ c = '.') : c ∈ '.' :: asciiDigits :=
  List.mem_cons.mpr (hc.symm.imp_right mem_asciiDigits)

theorem Lexeme.read_numeral {c : Char} (hc : c.isDigit = true ∨ c = '.') {text : List Char} {x : Float}
    (hx : (Numeral.read (c :: text)).value? = some x) :
    read c text = .ok ⟨.number x, (Numeral.read (c :: text)).text.length⟩ := by
  have hstart := (not_start_of_digit c (mem_of_digit_or_point hc)).1
  unfold read
  split <;> first | exact absurd hc (by decide) | simp [hstart, hc, hx]

theorem tokens_numeral {n : Numeral} (h : n.IsRead) {x : Float} (hx : n.value? = some x)
    {rest : List Char} (hr : ∀ c ∈ rest.head?, c.isDigit = false ∧ c ≠ '.' ∧ c ≠ 'e' ∧ c ≠ 'E') :
    tokens (n.text ++ rest) = (do return .number x :: (← tokens rest)) := by
  have hread := Numeral.read_text h.toIsFormed hr
  obtain ⟨c, word, ht, hc⟩ := h.head_cases
  have hw := (not_start_of_digit c (mem_of_digit_or_point hc)).2
  rw [ht, List.cons_append] at hread ⊢
  refine tokens_lexeme hw ?_
  rw [Lexeme.read_numeral hc (hread ▸ hx), hread, ht]
  rfl

/-- A text with one token, a number, is that number with white space around it. -/
theorem exists_numeral_of_tokens {text : List Char} {x : Float} (h : tokens text = .ok [.number x]) :
    ∃ before n after, text = before ++ Numeral.text n ++ after ∧ n.IsRead ∧ n.value? = some x ∧
      (∀ c ∈ before, isWhiteSpace c = true) ∧ ∀ c ∈ after, isWhiteSpace c = true := by
  induction text with
  | nil => cases h
  | cons c text ih =>
      cases hc : isWhiteSpace c with
      | true =>
          rw [tokens_space hc] at h
          obtain ⟨before, n, after, rfl, hn, hx, hb, ha⟩ := ih h
          exact ⟨c :: before, n, after, rfl, hn, hx, List.forall_mem_cons.mpr ⟨hc, hb⟩, ha⟩
      | false =>
          rw [tokens_cons hc] at h
          simp only [bind_eq_ok_iff, pure_eq, Except.ok.injEq, List.cons.injEq] at h
          obtain ⟨⟨token, length⟩, hl, us, hu, rfl, rfl⟩ := h
          obtain ⟨hx, rfl⟩ := Lexeme.numeral_of_read hl
          obtain ⟨after, ht⟩ := Numeral.text_read (c :: text)
          have hn := Numeral.isRead_read hx
          obtain ⟨d, word, hw, -⟩ := hn.head_cases
          generalize Numeral.read (c :: text) = n at *
          rw [hw, List.cons_append, List.cons.injEq] at ht
          obtain ⟨rfl, rfl⟩ := ht
          rw [hw, List.length_cons, Nat.add_sub_cancel, tokensFrom_length] at hu
          exact ⟨[], n, after, by simp [hw], hn, hx, by simp, tokens_eq_nil_iff.mp hu⟩

theorem tokens_op (o : Op) {rest : List Char} (hr : rest.head? ≠ some '*') :
    tokens (o.sign :: rest) = (do return .op o :: (← tokens rest)) := by
  have hc : isWhiteSpace o.sign = false := by cases o <;> decide
  have hl : Lexeme.read o.sign ([] ++ rest) = .ok ⟨.op o, 1⟩ := by
    cases o with
    | mul => simp [Lexeme.read, Op.sign, hr]
    | _ => rfl
  exact tokens_lexeme hc hl

theorem tokens_power (rest : List Char) :
    tokens ('*' :: '*' :: rest) = (do return .power :: (← tokens rest)) :=
  @tokens_lexeme '*' ['*'] rest .power (by decide) rfl

end DeskCalculator
