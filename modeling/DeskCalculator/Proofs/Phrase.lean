import DeskCalculator.Proofs.Call
import DeskCalculator.Proofs.Canonical.Leaves

/-!
# Typed phrases

A typed text is a phrase of a category when its canonical text is read as one wherever it stands.
Phrases are put together from their parts as the grammar puts together lists of tokens.
-/

namespace DeskCalculator

open DeskCalculator.Except Grammar Canonical Character

/-! ## Parentheses and signs -/

def parenthesised (raw : List Char) : List Char := '(' :: (raw ++ [')'])

/-- How a user may write the operator. -/
def Op.signs : Op → List Char
  | .add => ['+']
  | .sub => ['-', '–', '−']
  | .mul => ['*', '×']
  | .div => ['/', '÷']

theorem Op.asciiSign_of_mem_signs (o : Op) : ∀ c ∈ o.signs, asciiSign c = o.sign := by
  cases o <;> exact forall_mem_of_all (by decide)

theorem Op.sign_mem_marks (o : Op) :
    o.sign ∈ marks ∧ o.sign ≠ '(' ∧ o.sign ≠ ')' ∧ powerSign o.sign = [o.sign] := by
  cases o <;> decide

/-! ## Phrases -/

structure ReadAs (mode : AngleMode) (raw : List Char) (c : Category) (t : ParseTree) : Prop where
  visible : raw.all isWhiteSpace = false
  balanced : IsBalanced raw
  -- A star at the start would make a power of the operator before it.
  start : ∃ d rest, Canonical.text mode raw = d :: rest ∧ d ≠ '*'
  reads : ∃ ts, Derives c ts t ∧ ∀ rest, Breaks rest →
    tokens (Canonical.text mode raw ++ rest) = (do return ts ++ (← tokens rest))

namespace ReadAs

variable {mode : AngleMode} {raw raw' : List Char} {t u : ParseTree}

theorem mono {c c' : Category} (h : ReadAs mode raw c t) (hc : ∀ ts, Derives c ts t → Derives c' ts t) :
    ReadAs mode raw c' t := by
  obtain ⟨ts, hd, hr⟩ := h.reads
  exact ⟨h.visible, h.balanced, h.start, ts, hc ts hd, hr⟩

theorem of_le {m n : Nat} (hm : m ≤ n) (h : ReadAs mode raw (Category.ofStrength n) t) :
    ReadAs mode raw (Category.ofStrength m) t :=
  h.mono fun _ hd => hd.of_le hm

theorem of_atom (n : Nat) (h : ReadAs mode raw .atom t) : ReadAs mode raw (Category.ofStrength n) t :=
  @of_le mode raw t n (n + 5) (by omega) h

theorem congr {c : Category} (h : ReadAs mode raw c t) (hv : raw'.all isWhiteSpace = false)
    (hb : beforeTrig raw' = beforeTrig raw) : ReadAs mode raw' c t := by
  have htext : Canonical.text mode raw' = Canonical.text mode raw := congrArg (expandTrig mode) hb
  refine ⟨hv, ?_, htext ▸ h.start, htext ▸ h.reads⟩
  rw [IsBalanced, hb]
  exact h.balanced

theorem exists_tokens {c : Category} (h : ReadAs mode raw c t) :
    ∃ ts, Derives c ts t ∧ tokens (Canonical.text mode raw) = .ok ts := by
  obtain ⟨ts, hd, hr⟩ := h.reads
  refine ⟨ts, hd, ?_⟩
  have := hr [] trivial
  simpa using this

theorem head?_ne {c : Category} (h : ReadAs mode raw c t) (rest : List Char) :
    (Canonical.text mode raw ++ rest).head? ≠ some '*' := by
  obtain ⟨d, after, ht, hd⟩ := h.start
  simpa [ht] using hd

theorem start_append {c : Category} (h : ReadAs mode raw c t) (rest : List Char) :
    ∃ d after, Canonical.text mode raw ++ rest = d :: after ∧ d ≠ '*' := by
  obtain ⟨d, after, ht, hd⟩ := h.start
  exact ⟨d, after ++ rest, by rw [ht, List.cons_append], hd⟩

/-! ## Parentheses and calls -/

/-- Whatever is read alone is read in parentheses. -/
theorem bracketed {ts : List Token} (hb : IsBalanced raw)
    (ht : tokens (Canonical.text mode raw) = .ok ts) (hs : Sentence ts t) :
    ReadAs mode (parenthesised raw) .atom (.group t) := by
  have htext : Canonical.text mode (parenthesised raw) = '(' :: (Canonical.text mode raw ++ [')']) := by
    rw [parenthesised, text_group hb]
    rfl
  refine ⟨?_, hb.group, ⟨'(', _, htext, by decide⟩, _, .group hs, fun rest _ => ?_⟩
  · have ho : isWhiteSpace '(' = false := by decide
    simp [parenthesised, ho]
  · have := tokens_grouped (Canonical.text mode raw) rest
    rw [ht] at this
    simpa [htext, grouped] using this

theorem group (h : ReadAs mode raw (.chain .sum) t) :
    ReadAs mode (parenthesised raw) .atom (.group t) := by
  obtain ⟨ts, hd, ht⟩ := h.exists_tokens
  exact bracketed h.balanced ht hd

theorem callText_start (mode : AngleMode) (f : NamedFunction) :
    ∃ d rest, (callText mode f).before = d :: rest ∧ d ≠ '*' := by
  have hh : (callText mode f).before.head?.any (· != '*') = true := by
    cases mode <;> cases f <;> decide
  cases hb : (callText mode f).before with
  | nil => simp [hb] at hh
  | cons d rest => exact ⟨d, rest, rfl, by simpa [hb] using hh⟩

theorem called {f : NamedFunction} {word : List Char} (hf : IsTyped f word) {ts : List Token}
    (hb : IsBalanced raw) (ht : tokens (Canonical.text mode raw) = .ok ts) (hs : Sentence ts t) :
    ReadAs mode (word ++ parenthesised raw) .atom (callTree mode f t) := by
  obtain ⟨n, hn, -⟩ := id hf
  have htext : Canonical.text mode (word ++ parenthesised raw) =
      (callText mode f).before ++ Canonical.text mode raw ++ (callText mode f).after := by
    have := @text_call mode raw [] f word hf hb
    simpa [parenthesised] using this
  refine ⟨?_, hb.call hf, ?_, _, derives_callTree mode f hs, fun rest _ => ?_⟩
  · have ho : isWhiteSpace '(' = false := by decide
    simp [parenthesised, ho]
  · obtain ⟨d, before, hbefore, hne⟩ := callText_start mode f
    exact ⟨d, before ++ (Canonical.text mode raw ++ (callText mode f).after),
      by simp [htext, hbefore], hne⟩
  · rw [htext, tokens_callText _ _ hn, ht, ok_bind]

theorem call {f : NamedFunction} {word : List Char} (hf : IsTyped f word)
    (h : ReadAs mode raw (.chain .sum) t) :
    ReadAs mode (word ++ parenthesised raw) .atom (callTree mode f t) := by
  obtain ⟨ts, hd, ht⟩ := h.exists_tokens
  exact called hf h.balanced ht hd

/-! ## Signs -/

section

variable {c : Category} {sign : Char} {o : Op}

theorem behind_sign (hs : sign ∈ o.signs) (h : ReadAs mode raw c t) :
    Canonical.text mode (sign :: raw) = o.sign :: Canonical.text mode raw ∧
    ∃ ts, Derives c ts t ∧ ∀ rest, Breaks rest →
      tokens (o.sign :: (Canonical.text mode raw ++ rest)) =
        (do return .op o :: (ts ++ (← tokens rest))) := by
  obtain ⟨hm, ho, hcl, hp⟩ := o.sign_mem_marks
  have ha := o.asciiSign_of_mem_signs sign hs
  obtain ⟨ts, hd, hr⟩ := h.reads
  refine ⟨?_, ts, hd, fun rest hb => ?_⟩
  · have := @text_append mode [] raw sign (ha ▸ hm) (ha ▸ ho) (ha ▸ hcl) .nil
    simpa [ha, hp] using this
  · rw [tokens_op o (h.head?_ne rest), hr rest hb]
    simp

theorem isBalanced_sign (hs : sign ∈ o.signs) (hr : IsBalanced raw) (hr' : IsBalanced raw') :
    IsBalanced (raw ++ sign :: raw') := by
  obtain ⟨hm, ho, hcl, -⟩ := o.sign_mem_marks
  have ha := o.asciiSign_of_mem_signs sign hs
  exact hr.append (ha ▸ hm) (ha ▸ ho) (ha ▸ hcl) hr'

theorem all_isWhiteSpace_append (h : raw.all isWhiteSpace = false) (rest : List Char) :
    (raw ++ rest).all isWhiteSpace = false := by
  rw [List.all_append, h, Bool.false_and]

theorem all_isWhiteSpace_cons (h : raw.all isWhiteSpace = false) (c : Char) :
    (c :: raw).all isWhiteSpace = false := by
  rw [List.all_cons, h, Bool.and_false]

theorem prefixed (hs : sign ∈ o.signs) (hne : o.sign ≠ '*') (h : ReadAs mode raw .signed t)
    (hu : ∀ ts, Derives .signed ts t → Derives .signed (.op o :: ts) u) :
    ReadAs mode (sign :: raw) .signed u := by
  obtain ⟨htext, ts, hd, hr⟩ := h.behind_sign hs
  have hb : IsBalanced ([] ++ sign :: raw) := isBalanced_sign hs .nil h.balanced
  refine ⟨all_isWhiteSpace_cons h.visible sign, hb, ⟨_, _, htext, hne⟩, _, hu ts hd, ?_⟩
  intro rest hb
  rw [htext, List.cons_append, hr rest hb]
  simp only [List.cons_append]

theorem plus (hs : sign ∈ Op.add.signs) (h : ReadAs mode raw .signed t) :
    ReadAs mode (sign :: raw) .signed (.plus t) :=
  h.prefixed hs (by decide) fun _ => .plus

theorem minus (hs : sign ∈ Op.sub.signs) (h : ReadAs mode raw .signed t) :
    ReadAs mode (sign :: raw) .signed (.minus t) :=
  h.prefixed hs (by decide) fun _ => .minus

theorem binary (hs : sign ∈ o.signs)
    (h : ReadAs mode raw (Category.ofStrength (PostfixOrder.strength o)) t)
    (h' : ReadAs mode raw' (Category.ofStrength (PostfixOrder.strength o + 1)) u) :
    ReadAs mode (raw ++ sign :: raw') (Category.ofStrength (PostfixOrder.strength o))
      (.binary o t u) := by
  obtain ⟨hm, ho, hcl, hp⟩ := o.sign_mem_marks
  have ha := o.asciiSign_of_mem_signs sign hs
  obtain ⟨ts, hd, hr⟩ := h.reads
  obtain ⟨-, us, hd', hr'⟩ := h'.behind_sign hs
  have htext : Canonical.text mode (raw ++ sign :: raw') =
      Canonical.text mode raw ++ o.sign :: Canonical.text mode raw' := by
    rw [text_append (ha ▸ hm) (ha ▸ ho) (ha ▸ hcl) h.balanced, ha, hp, List.append_assoc]
    rfl
  refine ⟨all_isWhiteSpace_append h.visible _, isBalanced_sign hs h.balanced h'.balanced,
    htext ▸ h.start_append _, _, hd.binary hd', fun rest hb => ?_⟩
  have hbreaks : Breaks (o.sign :: (Canonical.text mode raw' ++ rest)) := ⟨hm, ho⟩
  rw [htext, List.append_assoc, List.cons_append, hr _ hbreaks, hr' rest hb]
  simp

end

theorem power (h : ReadAs mode raw .atom t) (h' : ReadAs mode raw' .signed u) :
    ReadAs mode (raw ++ '^' :: raw') .power (.power t u) := by
  obtain ⟨ts, hd, hr⟩ := h.reads
  obtain ⟨us, hd', hr'⟩ := h'.reads
  have hm : asciiSign '^' ∈ marks ∧ asciiSign '^' ≠ '(' ∧ asciiSign '^' ≠ ')' := by decide
  have hp : powerSign (asciiSign '^') = ['*', '*'] := by decide
  have htext : Canonical.text mode (raw ++ '^' :: raw') =
      Canonical.text mode raw ++ '*' :: '*' :: Canonical.text mode raw' := by
    rw [text_append hm.1 hm.2.1 hm.2.2 h.balanced, hp, List.append_assoc]
    rfl
  refine ⟨all_isWhiteSpace_append h.visible _, h.balanced.append hm.1 hm.2.1 hm.2.2 h'.balanced,
    htext ▸ h.start_append _, _, .raised hd hd', fun rest hb => ?_⟩
  have hbreaks : Breaks ('*' :: '*' :: (Canonical.text mode raw' ++ rest)) := ⟨by decide, by decide⟩
  rw [htext, List.append_assoc, List.cons_append, List.cons_append, hr _ hbreaks, tokens_power,
    hr' rest hb]
  simp

/-! ## Numbers and constants -/

theorem not_in_numeral_of_mark : ∀ c ∈ marks, c.isDigit = false ∧ c ≠ '.' ∧ c ≠ 'e' ∧ c ≠ 'E' :=
  forall_mem_of_all (by decide)

theorem not_in_numeral_of_breaks {rest : List Char} (h : Breaks rest) :
    ∀ c ∈ rest.head?, c.isDigit = false ∧ c ≠ '.' ∧ c ≠ 'e' ∧ c ≠ 'E' := by
  intro c hc
  cases rest with
  | nil => cases hc
  | cons d rest =>
      obtain rfl : d = c := by simpa using hc
      exact not_in_numeral_of_mark d h.1

theorem noNameHead_of_breaks {rest : List Char} (h : Breaks rest) : NoNameHead rest := by
  cases rest with
  | nil => exact fun c hc => by cases hc
  | cons c rest => exact noNameHead_mark h.1 rest

theorem visible_of_digit {c : Char} (hc : c.isDigit = true) (rest : List Char) :
    (c :: rest).all isWhiteSpace = false := by
  rw [List.all_cons, (not_start_of_digit c (mem_of_digit_or_point (.inl hc))).2, Bool.false_and]

section

variable {n : Numeral} (hn : n.IsWritten) {x : Float} (hx : n.value? = some x)
include hn

theorem visible_text (rest : List Char) : (n.text ++ rest).all isWhiteSpace = false := by
  obtain ⟨c, word, ht, hc⟩ := hn.exists_digit
  rw [ht, List.cons_append]
  exact visible_of_digit hc _

include hx

theorem number (mode : AngleMode) : ReadAs mode n.text .atom (.number x) := by
  have htext := hn.text_text mode
  obtain ⟨c, word, ht, hc⟩ := hn.exists_digit
  have hv := visible_text hn []
  rw [List.append_nil] at hv
  refine ⟨hv, hn.isBalanced, ⟨c, word, htext.trans ht, ?_⟩, _, .number x, fun rest hb => ?_⟩
  · rintro rfl
    exact absurd hc (by decide)
  · rw [htext]
    exact tokens_numeral hn.isRead hx (not_in_numeral_of_breaks hb)

end

theorem hundred (mode : AngleMode) : ReadAs mode ['1', '0', '0'] .atom (.number 100) := by
  have hn : Numeral.IsWritten ⟨['1', '0', '0'], false, [], none⟩ :=
    .of_digits (by decide) (forall_mem_of_all (by decide))
  have hx : Numeral.value? ⟨['1', '0', '0'], false, [], none⟩ = some 100 := by decide +kernel
  exact @number ⟨['1', '0', '0'], false, [], none⟩ hn 100 hx mode

section

variable {n : Numeral} (hn : n.IsWritten) {x : Float} (hx : n.value? = some x)
include hn hx

theorem percent (mode : AngleMode) (he : n.exponent = none) :
    ReadAs mode (n.text ++ ['%']) .atom (.group (.binary .div (.number x) (.number 100))) := by
  have hl := (number hn hx mode).of_atom (PostfixOrder.strength .div)
  have hr := (hundred mode).of_atom (PostfixOrder.strength .div + 1)
  have hq := (@binary mode n.text ['1', '0', '0'] _ _ '/' .div (by decide) hl hr).of_le (Nat.zero_le _)
  refine (group hq).congr (visible_text hn _) ?_
  have := hn.beforeTrig_percent he
  simpa [parenthesised] using this

theorem factorial (mode : AngleMode) (he : n.exponent = none) :
    ReadAs mode (n.text ++ ['!']) .atom (.call .factorial (.number x)) := by
  have htext := hn.text_factorial mode he
  obtain ⟨ts, hd, ht⟩ := (number hn hx mode).exists_tokens
  rw [hn.text_text mode] at ht
  refine ⟨visible_text hn _, hn.isBalanced_factorial he, ⟨'f', _, htext, by decide⟩, _,
    .call hd.of_atom.of_signed, ?_⟩
  intro rest _
  rw [htext]
  have := tokens_called n.text rest .factorial
  rw [ht] at this
  simpa [DeskCalculator.called, grouped] using this

end

theorem constant {c : Constant} {word : List Char} (h : IsTypedConstant c word) (mode : AngleMode) :
    ReadAs mode word .atom (.constant c) := by
  have hall : ∀ p ∈ constantWords, p.2.all isWhiteSpace = false := by decide
  obtain ⟨htext, hb⟩ := h.text mode
  refine ⟨hall _ h.mem, hb, ?_, _, .constant c, fun rest hb => ?_⟩
  · rw [htext]
    cases c <;> exact ⟨'m', _, rfl, by decide⟩
  · rw [htext, tokens_name (isName_of_constant c) (noNameHead_of_breaks hb)]
    rfl

end ReadAs

end DeskCalculator
