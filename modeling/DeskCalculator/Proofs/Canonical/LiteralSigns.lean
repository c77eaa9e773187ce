import DeskCalculator.Proofs.Canonical.Literal

/-!
# The literals that a sign takes

Each sign directly behind a digit takes the longest literal that ends there, and no other sign takes
anything. The text between what they take stays, in its order.
-/

namespace DeskCalculator.Canonical

open Character Rule

/-! ## Signs behind digits -/

/-- A sign stands directly behind a digit. -/
def HasSignedDigit (sign : Char) (text : List Char) : Prop :=
  ∃ d, isDecimalDigit d = true ∧ [d, sign] <:+: text

/-- The longest literal at the end of the text. -/
structure IsLastLiteral (text literal : List Char) : Prop where
  isLiteral : IsLiteral literal
  ends : literal <:+ text
  longest : ∀ other, IsLiteral other → other <:+ text → other.length ≤ literal.length

/-- The literal of a sign, and the text between it and the literal before. -/
structure SignedLiteral where
  between : List Char
  literal : List Char

def SignedLiteral.written (before after : String) (s : SignedLiteral) : List Char :=
  s.between ++ (before.toList ++ s.literal ++ after.toList)

/-- Behind `left` the text has these literals, each the longest one before its sign, and then a rest. No
other sign stands directly behind a digit. -/
inductive SignsTake (sign : Char) :
    (left text : List Char) → List SignedLiteral → (rest : List Char) → Prop
  | rest {left text} : ¬ HasSignedDigit sign text → SignsTake sign left text [] text
  | literal {left between literal text literals rest} :
      IsLastLiteral (left ++ (between ++ literal)) literal →
      ¬ HasSignedDigit sign (between ++ literal) →
      SignsTake sign (left ++ (between ++ literal) ++ [sign]) text literals rest →
      SignsTake sign left (between ++ literal ++ sign :: text) (⟨between, literal⟩ :: literals) rest

theorem IsLastLiteral.unique {text literal other : List Char} (h : IsLastLiteral text literal)
    (h' : IsLastLiteral text other) : literal = other := by
  have hlen : literal.length = other.length :=
    Nat.le_antisymm (h'.longest literal h.isLiteral h.ends) (h.longest other h'.isLiteral h'.ends)
  exact (List.suffix_of_suffix_length_le h.ends h'.ends (Nat.le_of_eq hlen)).eq_of_length hlen

section

variable {sign : Char}

theorem not_hasSignedDigit_of_notMem {text : List Char} (h : sign ∉ text) :
    ¬ HasSignedDigit sign text := by
  rintro ⟨d, -, hi⟩
  exact h (hi.subset (by simp))

theorem hasSignedDigit_cons {c : Char} {text : List Char} :
    HasSignedDigit sign (c :: text) ↔
    (isDecimalDigit c = true ∧ text.head? = some sign) ∨ HasSignedDigit sign text := by
  have hhead : [sign] <+: text ↔ text.head? = some sign := by
    cases text <;> simp [List.cons_prefix_cons, eq_comm]
  simp only [HasSignedDigit, List.infix_cons_iff, List.cons_prefix_cons, hhead]
  constructor
  · rintro ⟨d, hd, ⟨rfl, hs⟩ | hi⟩
    · exact .inl ⟨hd, hs⟩
    · exact .inr ⟨d, hd, hi⟩
  · rintro (⟨hd, hs⟩ | ⟨d, hd, hi⟩)
    · exact ⟨c, hd, .inl ⟨rfl, hs⟩⟩
    · exact ⟨d, hd, .inr hi⟩

theorem IsLiteral.digit {d : Char} (hd : isDecimalDigit d = true) : IsLiteral [d] :=
  ⟨[d], [], by simp, by simpa using hd, rfl⟩

theorem IsLiteral.hasSignedDigit {literal : List Char} (h : IsLiteral literal)
    (before after : List Char) :
    HasSignedDigit sign (before ++ literal ++ sign :: after) := by
  obtain ⟨d, hl, hd⟩ := h.exists_getLast
  obtain ⟨front, rfl⟩ := List.getLast?_eq_some_iff.mp hl
  exact ⟨d, hd, before ++ front, after, by simp⟩

/-! ## One way to take them -/

/-- The first sign behind a digit ends the first literal. -/
theorem eq_nil_of_signed {before literal extra text text' : List Char} (h : IsLiteral literal)
    (hn : ¬ HasSignedDigit sign (before ++ literal ++ extra))
    (ht : sign :: text = extra ++ sign :: text') : extra = [] := by
  cases extra with
  | nil => rfl
  | cons c extra =>
      obtain ⟨rfl, -⟩ := List.cons.inj ht
      exact absurd (h.hasSignedDigit before extra) hn

theorem append_inj_of_signed {between literal between' literal' text text' : List Char}
    (h : between ++ literal ++ sign :: text = between' ++ literal' ++ sign :: text')
    (hl : IsLiteral literal) (hl' : IsLiteral literal') (hn : ¬ HasSignedDigit sign (between ++ literal))
    (hn' : ¬ HasSignedDigit sign (between' ++ literal')) :
    between ++ literal = between' ++ literal' ∧ text = text' := by
  have hfront : between ++ literal = between' ++ literal' := by
    rcases List.append_eq_append_iff.mp h with ⟨extra, he, ht⟩ | ⟨extra, he, ht⟩
    · obtain rfl := eq_nil_of_signed hl (he ▸ hn') ht
      simpa using he.symm
    · obtain rfl := eq_nil_of_signed hl' (he ▸ hn) ht
      simpa using he
  rw [hfront] at h
  exact ⟨hfront, (List.cons.inj (List.append_cancel_left h)).2⟩

theorem SignsTake.unique {left text rest rest' : List Char} {literals literals' : List SignedLiteral}
    (h : SignsTake sign left text literals rest) (h' : SignsTake sign left text literals' rest') :
    literals' = literals ∧ rest' = rest := by
  induction h generalizing literals' rest' with
  | @rest left text hn =>
      generalize ht : text = whole at h'
      cases h' with
      | rest => exact ⟨rfl, rfl⟩
      | literal hl _ _ => exact absurd (ht ▸ hl.isLiteral.hasSignedDigit _ _) hn
  | @literal left between literal text literals rest hl hn _ ih =>
      generalize ht : between ++ literal ++ sign :: text = whole at h'
      cases h' with
      | rest hn' => exact absurd (ht ▸ hl.isLiteral.hasSignedDigit _ _) hn'
      | literal hl' hn' h' =>
          obtain ⟨hfront, rfl⟩ := append_inj_of_signed ht hl.isLiteral hl'.isLiteral hn hn'
          rw [← hfront] at hl' h'
          obtain rfl := hl.unique hl'
          obtain rfl := List.append_cancel_right hfront
          obtain ⟨rfl, rfl⟩ := ih h'
          exact ⟨rfl, rfl⟩

/-! ## What the rule takes -/

/-- No literal that begins in `left` has its sign in the text. -/
def NoLiteralAcross (sign : Char) (left text : List Char) : Prop :=
  ∀ front back, front ≠ [] → front <:+ left → back ++ [sign] <+: text → ¬ IsLiteral (front ++ back)

namespace NoLiteralAcross

variable {left text literal : List Char} {c : Char}

theorem nil (sign : Char) (text : List Char) : NoLiteralAcross sign [] text :=
  fun _ _ hne hs => absurd (List.suffix_nil.mp hs) hne

theorem keep (h : NoLiteralAcross sign left (c :: text)) (hs : isDecimalDigit sign = false)
    (hp : sign ≠ '.') (hn : literalBefore? sign (c :: text) = none) :
    NoLiteralAcross sign (left ++ [c]) text := by
  intro front back hne hsuffix hback hl
  rcases List.suffix_concat_iff.mp hsuffix with rfl | ⟨front, rfl, hf⟩
  · exact hne rfl
  rw [List.append_assoc] at hl
  by_cases hnil : front = []
  · subst hnil
    obtain ⟨after, rfl⟩ := hback
    have := literalBefore?_of_isLiteral hs hp hl after
    simp_all
  · exact h front (c :: back) hnil hf (by simpa using hback) hl

theorem take (hs : isDecimalDigit sign = false) (hp : sign ≠ '.') :
    NoLiteralAcross sign (left ++ [sign]) text := by
  intro front back hne hsuffix _ hl
  rcases List.suffix_concat_iff.mp hsuffix with rfl | ⟨front, rfl, -⟩
  · exact hne rfl
  · rcases hl.mem sign (by simp) with h | h
    · simp [hs] at h
    · exact hp h

/-- Then the literal in the text is the longest one before its sign. -/
theorem isLastLiteral (h : NoLiteralAcross sign left (literal ++ sign :: text))
    (hl : IsLiteral literal) :
    IsLastLiteral (left ++ literal) literal where
  isLiteral := hl
  ends := List.suffix_append left literal
  longest other ho hs := by
    rcases List.suffix_or_suffix_of_suffix hs (List.suffix_append left literal) with hs' | ⟨front, rfl⟩
    · exact hs'.length_le
    · obtain ⟨_, ht⟩ := hs
      rw [← List.append_assoc] at ht
      have hf : front <:+ left := ⟨_, List.append_cancel_right ht⟩
      by_cases hnil : front = []
      · simp [hnil]
      · exact absurd ho (h front literal hnil hf (by simp))

end NoLiteralAcross

/-- A character before all of this is one more between the literals. -/
theorem SignsTake.keep {left text rest : List Char} {literals : List SignedLiteral} {c : Char}
    (h : SignsTake sign (left ++ [c]) text literals rest)
    (hc : ¬ (isDecimalDigit c = true ∧ text.head? = some sign)) :
    ∃ literals' rest', SignsTake sign left (c :: text) literals' rest' ∧ ∀ before after,
      literals'.flatMap (SignedLiteral.written before after) ++ rest' =
        c :: (literals.flatMap (SignedLiteral.written before after) ++ rest) := by
  cases h with
  | rest hn =>
      exact ⟨[], c :: text, .rest (mt hasSignedDigit_cons.mp (not_or.mpr ⟨hc, hn⟩)), fun _ _ => rfl⟩
  | @literal _ between literal text literals _ hl hn h =>
      have hleft : left ++ [c] ++ (between ++ literal) = left ++ (c :: between ++ literal) := by simp
      have hcons : ¬ HasSignedDigit sign (c :: (between ++ literal)) := by
        rw [hasSignedDigit_cons, not_or]
        exact ⟨fun hd => hc ⟨hd.1, by rw [List.head?_append, hd.2]; rfl⟩, hn⟩
      rw [hleft] at hl h
      exact ⟨⟨c :: between, literal⟩ :: literals, rest, .literal hl hcons h,
        fun _ _ => by simp [SignedLiteral.written]⟩

theorem exists_signsTake {before after : String} (hs : isDecimalDigit sign = false) (hp : sign ≠ '.')
    (previous : Option Char) (text : List Char) {left : List Char}
    (hleft : NoLiteralAcross sign left text) :
    ∃ literals rest, SignsTake sign left text literals rest ∧
      (signRule sign before after).applyFrom 0 previous text =
        literals.flatMap (SignedLiteral.written before after) ++ rest := by
  refine applyFrom_induction (motive := fun _ text written => ∀ left, NoLiteralAcross sign left text →
      ∃ literals rest, SignsTake sign left text literals rest ∧
        written = literals.flatMap (SignedLiteral.written before after) ++ rest)
    (signRule_takes sign before after) ?_ ?_ ?_ previous text left hleft
  · exact fun _ left _ => ⟨[], [], .rest (not_hasSignedDigit_of_notMem (by simp)), rfl⟩
  · intro previous c text written hn ih left hleft
    have hn : literalBefore? sign (c :: text) = none := Option.map_eq_none_iff.mp hn
    obtain ⟨literals, rest, h, rfl⟩ := ih _ (hleft.keep hs hp hn)
    have hc : ¬ (isDecimalDigit c = true ∧ text.head? = some sign) := by
      rintro ⟨hc, hhead⟩
      obtain ⟨text, rfl⟩ := List.head?_eq_some_iff.mp hhead
      have := literalBefore?_of_isLiteral hs hp (.digit hc) text
      simp_all
    obtain ⟨literals', rest', h', hw⟩ := h.keep hc
    exact ⟨literals', rest', h', (hw before after).symm⟩
  · intro previous taken text written r hr hlen ih left hleft
    obtain ⟨literal, hl, rfl, hw⟩ := taken_of_signRule hr hlen
    obtain ⟨literals, rest', h, rfl⟩ := ih (left ++ literal ++ [sign]) (.take hs hp)
    rw [List.append_assoc, List.singleton_append] at hleft ⊢
    have hsign : sign ∉ literal := fun hm => (hl.mem sign hm).elim (by simp [hs]) hp
    exact ⟨⟨[], literal⟩ :: literals, rest',
      @SignsTake.literal sign left [] literal _ _ _ (hleft.isLastLiteral hl)
      (not_hasSignedDigit_of_notMem hsign) h, by simp [hw, SignedLiteral.written]⟩

/-- In every text each sign `%` directly behind a digit, and no other, takes the longest literal before
it, and so does each sign `!`; between and behind what they take the text stays as it is. -/
theorem signs_take_longest_literals (text : List Char) :
    (∃ literals rest, SignsTake '%' [] text literals rest ∧
      (∀ literals' rest', SignsTake '%' [] text literals' rest' → literals' = literals ∧ rest' = rest) ∧
      percent.apply text = literals.flatMap (SignedLiteral.written "(" "/100)") ++ rest) ∧
    (∃ literals rest, SignsTake '!' [] text literals rest ∧
      (∀ literals' rest', SignsTake '!' [] text literals' rest' → literals' = literals ∧ rest' = rest) ∧
      factorial.apply text = literals.flatMap (SignedLiteral.written "factorial(" ")") ++ rest) := by
  obtain ⟨percents, rest, hp, hpw⟩ :=
    @exists_signsTake '%' "(" "/100)" (by decide) (by decide) none text [] (.nil '%' text)
  obtain ⟨factorials, rest', hf, hfw⟩ :=
    @exists_signsTake '!' "factorial(" ")" (by decide) (by decide) none text [] (.nil '!' text)
  exact ⟨⟨percents, rest, hp, fun _ _ h => hp.unique h, hpw⟩, factorials, rest', hf,
    fun _ _ h => hf.unique h, hfw⟩

example : percent.apply "1.2.3%+x5%7.%".toList = "1.(2.3/100)+x(5/100)7.%".toList := by decide

end

end DeskCalculator.Canonical
