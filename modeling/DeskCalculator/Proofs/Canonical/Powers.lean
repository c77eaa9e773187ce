import DeskCalculator.Proofs.Canonical.FunctionCall
import DeskCalculator.Proofs.Phrase

/-!
# What is read as a power

A power is typed as a caret or as two multiplication signs side by side, be they stars or crosses: the
rules never part two such signs, and what they write between others never brings two together. A text is
read character by character, and what was read so far counts only by whether a power is in it and whether
a sign ends it.
-/

namespace DeskCalculator.Canonical

open Character Rule DeskCalculator.Except

/-! ## Multiplication signs -/

/-- What counts of a text that was read. -/
structure Stars where
  /-- The last character is a multiplication sign, or a caret. -/
  behindSign : Bool
  /-- There is a caret, or two multiplication signs stand side by side. -/
  power : Bool

namespace Stars

def next (s : Stars) (c : Char) : Stars :=
  if c = '^' then ⟨true, true⟩
  else if c ∈ Op.mul.signs then ⟨true, s.power || s.behindSign⟩
  else ⟨false, s.power⟩

def read (s : Stars) (text : List Char) : Stars := text.foldl next s

/-- What counts of a whole text. -/
def ofText (text : List Char) : Stars := read ⟨false, false⟩ text

/-- The text is there and has neither multiplication signs nor carets. -/
structure IsFree (text : List Char) : Prop where
  ne_nil : text ≠ []
  free : ∀ c ∈ text, c ∉ '^' :: Op.mul.signs

section

variable {s : Stars} {text : List Char} {c : Char}

@[simp] theorem read_nil : s.read [] = s := rfl

@[simp] theorem read_cons : s.read (c :: text) = (s.next c).read text := rfl

@[simp] theorem read_append (rest : List Char) : s.read (text ++ rest) = (s.read text).read rest :=
  List.foldl_append

theorem next_free (h : c ∉ '^' :: Op.mul.signs) : s.next c = ⟨false, s.power⟩ := by
  simp only [List.mem_cons, not_or] at h
  rw [next, if_neg h.1, if_neg h.2]

theorem next_caret : s.next '^' = ⟨true, true⟩ := if_pos rfl

theorem next_sign (h : c ∈ Op.mul.signs) : s.next c = ⟨true, s.power || s.behindSign⟩ := by
  have hne : c ≠ '^' := by
    rintro rfl
    exact absurd h (by decide)
  rw [next, if_neg hne, if_pos h]

theorem read_free (h : IsFree text) : s.read text = ⟨false, s.power⟩ := by
  obtain ⟨hne, hf⟩ := h
  induction text generalizing s with
  | nil => exact absurd rfl hne
  | cons c text ih =>
      rw [read_cons, next_free (hf c (by simp))]
      cases text with
      | nil => rfl
      | cons d text => exact ih (List.cons_ne_nil _ _) fun e he => hf e (by simp [he])

end

/-! ## Texts without signs -/

theorem not_isWord_of_sign :
    ∀ c ∈ '^' :: Op.mul.signs, isWord c = false ∧ isDecimalDigit c = false ∧ c ≠ '.' :=
  forall_mem_of_all (by decide +kernel)

namespace IsFree

variable {text rest : List Char}

theorem append (h : IsFree text) (h' : IsFree rest) : IsFree (text ++ rest) :=
  ⟨by simp [h.ne_nil], fun c hc => (List.mem_append.mp hc).elim (h.free c) (h'.free c)⟩

theorem of_all (h : text.all (fun c => decide (c ∉ '^' :: Op.mul.signs)) = true) (hne : text ≠ []) :
    IsFree text :=
  ⟨hne, by simpa using h⟩

theorem of_isWord (hne : text ≠ []) (h : ∀ c ∈ text, isWord c = true) : IsFree text :=
  ⟨hne, fun c hc hs => absurd (h c hc) (by simp [(not_isWord_of_sign c hs).1])⟩

theorem of_isLiteral (h : IsLiteral text) : IsFree text := by
  obtain ⟨c, hl, -⟩ := h.exists_getLast
  refine ⟨fun hne => by simp [hne] at hl, fun c hc hs => ?_⟩
  obtain ⟨-, hd, hp⟩ := not_isWord_of_sign c hs
  rcases h.mem c hc with hc | hc
  · exact absurd hc (by simp [hd])
  · exact hp hc

end IsFree

/-! ## Rules that write no signs -/

/-- What such a rule takes is read like what it writes. -/
theorem keeps_of_free {rule : Rule}
    (h : ∀ previous text r, rule previous text = some r →
      ∃ taken rest, text = taken ++ rest ∧ r.length = taken.length ∧ IsFree taken ∧ IsFree r.written) :
    rule.Keeps next := by
  intro previous text r hr
  obtain ⟨taken, rest, ht, hl, htaken, hwritten⟩ := h previous text r hr
  exact ⟨taken, rest, ht, hl, htaken.ne_nil, fun s => (read_free hwritten).trans (read_free htaken).symm⟩

theorem signRule_keeps {sign : Char} {before after : String} (hs : sign ∉ '^' :: Op.mul.signs)
    (hb : IsFree before.toList) (ha : IsFree after.toList) :
    (signRule sign before after).Keeps next := by
  refine keeps_of_free fun previous text r h => ?_
  obtain ⟨literal, hl, rfl⟩ := Option.map_eq_some_iff.mp h
  obtain ⟨hlit, rest, rfl⟩ := exists_after_of_literalBefore? hl
  have hfree := IsFree.of_isLiteral hlit
  exact ⟨literal ++ [sign], rest, by simp, by simp, hfree.append ⟨by simp, by simpa using hs⟩,
    (hb.append hfree).append ha⟩

theorem percent_keeps : percent.Keeps next :=
  signRule_keeps (by decide) (.of_all (by decide) (by decide)) (.of_all (by decide) (by decide))

theorem factorial_keeps : factorial.Keeps next :=
  signRule_keeps (by decide) (.of_all (by decide) (by decide)) (.of_all (by decide) (by decide))

theorem pi_keeps : pi.Keeps next := by
  have hname : IsFree "math.pi".toList := .of_all (by decide) (by decide)
  refine keeps_of_free fun previous text r h => ?_
  obtain ⟨word, rest, rfl, rfl, hne, hw⟩ := pi_eq_some h
  exact ⟨word, rest, rfl, rfl, .of_isWord hne hw, hname⟩

theorem euler_keeps : euler.Keeps next := by
  refine keeps_of_free fun previous text r h => ?_
  obtain ⟨rest, rfl, rfl⟩ := euler_eq_some h
  exact ⟨['e'], rest, rfl, rfl, .of_all (by decide) (by decide), .of_all (by decide) (by decide)⟩

theorem functionCall_keeps : functionCall.Keeps next := by
  have hopen : IsFree ['('] := .of_all (by decide) (by decide)
  refine keeps_of_free fun previous text r h => ?_
  obtain ⟨-, f, word, rest, rfl, hw, rfl⟩ := functionCall_eq_some h
  have hname (f : NamedFunction) : IsFree f.name.toList := by
    cases f <;> exact .of_all (by decide) (by decide)
  exact ⟨word ++ ['('], rest, by simp, by simp, (IsFree.of_isWord hw.isWord.1 hw.isWord.2).append hopen,
    (hname _).append hopen⟩

/-! ## Signs of typography -/

variable {s : Stars}

theorem next_asciiSign (c : Char) : s.next (asciiSign c) = s.next c := by
  unfold asciiSign
  split
  · rw [next_sign (by decide), next_sign (by decide)]
  · rw [next_free (by decide), next_free (by decide)]
  · rw [next_free (by decide), next_free (by decide)]
  · rw [next_free (by decide), next_free (by decide)]
  · rfl

theorem read_powerSign (c : Char) : s.read (powerSign c) = s.next c := by
  unfold powerSign
  split
  · rename_i hc
    obtain rfl : c = '^' := by simpa using hc
    rw [next_caret, read_cons, read_cons, next_sign (by decide), next_sign (by decide), Bool.or_true]
    rfl
  · rfl

theorem read_map_asciiSign (text : List Char) : s.read (text.map asciiSign) = s.read text := by
  simp only [read, List.foldl_map, next_asciiSign]

theorem read_flatMap_powerSign (text : List Char) : s.read (text.flatMap powerSign) = s.read text := by
  induction text generalizing s with
  | nil => rfl
  | cons c text ih => rw [List.flatMap_cons, read_append, read_powerSign, ih, read_cons]

theorem read_beforeTrig (raw : List Char) : s.read (beforeTrig raw) = s.read raw := by
  have hread {rule : Rule} (h : rule.Keeps next) (text : List Char) :
      s.read (rule.apply text) = s.read text :=
    h.foldl_apply s text
  rw [beforeTrig, hread factorial_keeps, hread functionCall_keeps, read_flatMap_powerSign,
    hread euler_keeps, hread pi_keeps, hread percent_keeps, read_map_asciiSign]

/-! ## Trigonometric calls -/

theorem free_openTrig {name : List Char} (hne : name ≠ []) (h : ∀ c ∈ name, isWord c = true) :
    IsFree (openTrig name) := by
  have hmath : IsFree "math.".toList := .of_all (by decide) (by decide)
  have hopen : IsFree ['('] := .of_all (by decide) (by decide)
  exact (hmath.append (.of_isWord hne h)).append hopen

/-- The multiplication sign behind a converted argument stands alone. -/
theorem read_wrapping_after (mode : AngleMode) (name : List Char) :
    s.read (wrapping mode name).after = ⟨false, s.power⟩ := by
  obtain ⟨behind, power⟩ := s
  unfold wrapping
  split <;> cases power <;> rfl

theorem free_wrapping_before (mode : AngleMode) {name : List Char} (hne : name ≠ [])
    (h : ∀ c ∈ name, isWord c = true) :
    IsFree (wrapping mode name).before := by
  have hname := free_openTrig hne h
  have hopen : IsFree ['('] := .of_all (by decide) (by decide)
  unfold wrapping
  split
  · exact hname
  · exact hname.append hopen
  · exact hopen.append hname

theorem read_expands {mode : AngleMode} {text expanded : List Char} (h : Expands mode text expanded) :
    s.read expanded = s.read text := by
  induction h generalizing s with
  | plain => rfl
  | closed hf hc _ _ iha ihb =>
      obtain ⟨hne, hw⟩ := hf.call.isWord
      obtain ⟨hne', hw'⟩ := hf.call.isWord_toLower
      have hopen := free_wrapping_before mode hne' hw'
      simp only [hf.parts, hc.parts, read_append, read_cons, read_free hopen, read_wrapping_after, iha,
        ihb, read_free (.of_isWord hne hw), next_free (c := '(') (by decide),
        next_free (c := ')') (by decide)]
  | unclosed hf _ _ ihb =>
      obtain ⟨hne, hw⟩ := hf.call.isWord
      obtain ⟨hne', hw'⟩ := hf.call.isWord_toLower
      simp only [hf.parts, read_append, read_cons, read_free (free_openTrig hne' hw'), ihb,
        read_free (.of_isWord hne hw), next_free (c := '(') (by decide)]

theorem read_text (mode : AngleMode) (raw : List Char) : s.read (text mode raw) = s.read raw := by
  rw [text, read_expands (expands_expandTrig mode _), read_beforeTrig]

/-! ## Signs side by side -/

/-- The user wrote a power: a caret, or two multiplication signs side by side. -/
def HasPower (text : List Char) : Prop :=
  '^' ∈ text ∨ ∃ a ∈ Op.mul.signs, ∃ b ∈ Op.mul.signs, [a, b] <:+: text

theorem pair_infix_cons {a b c : Char} {text : List Char} :
    [a, b] <:+: c :: text ↔ (a = c ∧ text.head? = some b) ∨ [a, b] <:+: text := by
  have hb : [b] <+: text ↔ text.head? = some b := by
    cases text with
    | nil => simp
    | cons d text => simp [List.cons_prefix_cons, eq_comm (a := b)]
  rw [List.infix_cons_iff, List.cons_prefix_cons, hb]

theorem hasPower_cons {c : Char} {text : List Char} : HasPower (c :: text) ↔
    c = '^' ∨ (c ∈ Op.mul.signs ∧ ∃ b ∈ Op.mul.signs, text.head? = some b) ∨ HasPower text := by
  simp only [HasPower, List.mem_cons, pair_infix_cons, eq_comm (a := '^')]
  constructor
  · rintro ((h | h) | ⟨a, ha, b, hb, ⟨rfl, hh⟩ | hi⟩)
    · exact .inl h
    · exact .inr (.inr (.inl h))
    · exact .inr (.inl ⟨ha, b, hb, hh⟩)
    · exact .inr (.inr (.inr ⟨a, ha, b, hb, hi⟩))
  · rintro (h | ⟨hc, b, hb, hh⟩ | h | ⟨a, ha, b, hb, hi⟩)
    · exact .inl (.inl h)
    · exact .inr ⟨c, hc, b, hb, .inl ⟨rfl, hh⟩⟩
    · exact .inl (.inr h)
    · exact .inr ⟨a, ha, b, hb, .inr hi⟩

theorem power_read_iff {text : List Char} : (s.read text).power = true ↔
    s.power = true ∨ (s.behindSign = true ∧ ∃ b ∈ Op.mul.signs, text.head? = some b) ∨
    HasPower text := by
  induction text generalizing s with
  | nil => simp [HasPower]
  | cons c text ih =>
      have hhead : (∃ b ∈ Op.mul.signs, (c :: text).head? = some b) ↔ c ∈ Op.mul.signs := by simp
      rw [read_cons, ih, hasPower_cons, hhead]
      by_cases hcaret : c = '^'
      · subst hcaret
        simp [next_caret]
      by_cases hsign : c ∈ Op.mul.signs
      · simp only [next_sign hsign, hcaret, hsign, Bool.or_eq_true, and_true, true_and, false_or,
          or_assoc]
      · simp [next_free (c := c) (by simp [hcaret, hsign]), hcaret, hsign]

theorem power_ofText_iff {text : List Char} : (ofText text).power = true ↔ HasPower text := by
  simp [ofText, power_read_iff]

/-! ## The tokens of a power -/

theorem not_part_of_sign :
    ∀ c ∈ '^' :: Op.mul.signs, isWhiteSpace c = false ∧ isNamePart c = false ∧ c ≠ '.' ∧
    c ∉ numeralSigns := forall_mem_of_all (by decide)

/-- A word that does not start with a star is no power. -/
theorem free_of_spelled {t : Token} {c : Char} {word : List Char} (h : t.Spelled (c :: word))
    (hc : c ≠ '*') :
    t ≠ .power ∧ IsFree (c :: word) := by
  have hne : c :: word ≠ [] := List.cons_ne_nil _ _
  generalize hw : c :: word = text at h hne
  cases h with
  | opening | closing => exact ⟨nofun, .of_all (by decide) hne⟩
  | op o =>
      refine ⟨nofun, ?_⟩
      cases o with
      | mul => exact absurd (List.cons.inj hw).1 hc
      | _ => exact .of_all (by decide) hne
  | power => exact absurd (List.cons.inj hw).1 hc
  | name hword _ =>
      refine ⟨nofun, hne, fun d hd hsign => ?_⟩
      obtain ⟨-, hp, hdot, -⟩ := not_part_of_sign d hsign
      rcases hword d hd with hd | hd
      · exact absurd hd (by simp [hp])
      · exact hdot hd
  | number hword => exact ⟨nofun, hne, fun d hd hsign => (not_part_of_sign d hsign).2.2.2 (hword d hd)⟩

/-- A cross is no part of a canonical text. -/
theorem tokens_cross (text : List Char) : tokens ('×' :: text) = .error (.unexpectedCharacter '×') := by
  rw [tokens_cons (by decide)]
  rfl

/-- The text is read into the tokens: a power is two stars, and a star before another sign is not read
alone. -/
inductive Scanned : List Char → List Token → Prop
  | nil : Scanned [] []
  | space {c : Char} {text : List Char} {ts : List Token} :
      isWhiteSpace c = true → Scanned text ts → Scanned (c :: text) ts
  | power {text : List Char} {ts : List Token} :
      Scanned text ts → Scanned ('*' :: '*' :: text) (.power :: ts)
  | star {text : List Char} {ts : List Token} :
      (∀ b ∈ Op.mul.signs, text.head? ≠ some b) → Scanned text ts →
      Scanned ('*' :: text) (.op .mul :: ts)
  | word {t : Token} {word text : List Char} {ts : List Token} :
      t ≠ .power → IsFree word → Scanned text ts →
      Scanned (word ++ text) (t :: ts)

theorem tokens_star_cases {text : List Char} {ts : List Token} (h : tokens ('*' :: text) = .ok ts) :
    (∃ rest us, text = '*' :: rest ∧ tokens rest = .ok us ∧ ts = .power :: us) ∨
      ∃ us, (∀ b ∈ Op.mul.signs, text.head? ≠ some b) ∧ tokens text = .ok us ∧ ts = .op .mul :: us := by
  by_cases hh : text.head? = some '*'
  · obtain ⟨rest, rfl⟩ := List.head?_eq_some_iff.mp hh
    rw [tokens_power] at h
    obtain ⟨us, hu, hts⟩ := bind_eq_ok_iff.mp h
    exact .inl ⟨rest, us, rfl, hu, (Except.ok.inj hts).symm⟩
  · rw [show '*' = Op.mul.sign from rfl, tokens_op .mul hh] at h
    obtain ⟨us, hu, hts⟩ := bind_eq_ok_iff.mp h
    refine .inr ⟨us, fun b hb hhead => ?_, hu, (Except.ok.inj hts).symm⟩
    obtain ⟨rest, rfl⟩ := List.head?_eq_some_iff.mp hhead
    have hb : b = '*' ∨ b = '×' := by simpa [Op.signs] using hb
    rcases hb with rfl | rfl
    · exact hh rfl
    · rw [tokens_cross] at hu
      cases hu

theorem scanned_of_tokens {text : List Char} {ts : List Token} (h : tokens text = .ok ts) :
    Scanned text ts := by
  induction hn : text.length using Nat.strongRecOn generalizing text ts with
  | _ n ih =>
      cases text with
      | nil =>
          obtain rfl := Except.ok.inj h
          exact .nil
      | cons c text =>
          have hlt : text.length < n := by simp [← hn]
          cases hc : isWhiteSpace c with
          | true =>
              rw [tokens_space hc] at h
              exact .space hc (ih _ hlt h rfl)
          | false =>
              by_cases hstar : c = '*'
              · subst hstar
                rcases tokens_star_cases h with ⟨rest, us, rfl, hu, rfl⟩ | ⟨us, hh, hu, rfl⟩
                · exact .power (ih rest.length (by simp only [List.length_cons] at hlt; omega) hu rfl)
                · exact .star hh (ih _ hlt hu rfl)
              · rw [tokens_cons hc] at h
                simp only [bind_eq_ok_iff, pure_eq, Except.ok.injEq] at h
                obtain ⟨lexeme, hl, us, hu, rfl⟩ := h
                obtain ⟨word, rest, rfl, hlen, hw⟩ := Lexeme.exists_spelled hl
                rw [hlen, Nat.add_sub_cancel, tokensFrom_length] at hu
                obtain ⟨ht, hfree⟩ := free_of_spelled hw hstar
                exact .word ht hfree
                  (ih rest.length (by simp only [List.length_append] at hlt; omega) hu rfl)

theorem power_mem_iff_of_scanned {text : List Char} {ts : List Token} (h : Scanned text ts) :
    .power ∈ ts ↔ HasPower text := by
  rw [← power_ofText_iff]
  induction h with
  | nil => simp [ofText]
  | @space c text ts hc _ ih =>
      have hfree : c ∉ '^' :: Op.mul.signs := fun hs => absurd hc (by simp [(not_part_of_sign c hs).1])
      rw [ih, ofText, ofText, read_cons, next_free hfree]
  | @power text ts _ _ =>
      have hpair : HasPower ('*' :: '*' :: text) := .inr ⟨'*', by decide, '*', by decide, [], text, rfl⟩
      simp [power_ofText_iff.mpr hpair]
  | @star text ts hh _ ih =>
      -- The star is forgotten, since no other sign follows it.
      have hnone : ¬ ∃ b ∈ Op.mul.signs, text.head? = some b := fun ⟨b, hb, h⟩ => hh b hb h
      rw [ofText, read_cons, next_sign (by decide), power_read_iff]
      simpa [hnone, ← power_ofText_iff] using ih
  | word ht hw _ ih =>
      simp only [List.mem_cons, Ne.symm ht, false_or, ih, ofText, read_append, read_free hw]

end Stars

/-! ## Powers of a typed text -/

/-- The tokens hold a power exactly where the user typed a caret or two multiplication signs side by
side, stars or crosses. -/
theorem power_mem_iff (mode : AngleMode) {raw : List Char} {ts : List Token}
    (h : tokens (text mode raw) = .ok ts) :
    .power ∈ ts ↔ '^' ∈ raw ∨ ∃ a ∈ Op.mul.signs, ∃ b ∈ Op.mul.signs, [a, b] <:+: raw := by
  have hcanonical := Stars.power_mem_iff_of_scanned (Stars.scanned_of_tokens h)
  rw [hcanonical, ← Stars.power_ofText_iff, Stars.ofText, Stars.read_text]
  exact Stars.power_ofText_iff

/-- Two crosses are a power without a caret and without a star. -/
theorem power_mem_crosses : ('^' ∉ "2××3".toList ∧ '*' ∉ "2××3".toList) ∧
    ∃ ts, tokens (text .degrees "2××3".toList) = .ok ts ∧ .power ∈ ts := by
  have h : tokens (text .degrees "2××3".toList) = .ok [.number 2, .power, .number 3] := by decide +kernel
  have hpair : ['×', '×'] <:+: "2××3".toList := ⟨['2'], ['3'], rfl⟩
  exact ⟨by decide, _, h, (power_mem_iff .degrees h).mpr (.inr ⟨'×', by decide, '×', by decide, hpair⟩)⟩

end DeskCalculator.Canonical
