import DeskCalculator.Canonical.Literal
import DeskCalculator.Proofs.Character
import DeskCalculator.Proofs.Rule

/-!
# Literals

A sign takes the digits before it, with a point between them, and nothing else. Where the digits of a
literal begin, the sign's rule takes it whole.
-/

namespace DeskCalculator.Canonical

open Character Rule

/-- Digits, with at most one point between them. -/
def IsLiteral (literal : List Char) : Prop :=
  ∃ whole fraction, whole ≠ [] ∧ (∀ c ∈ whole ++ fraction, isDecimalDigit c = true) ∧
    literal = whole ++ if fraction = [] then [] else '.' :: fraction

namespace IsLiteral

variable {literal : List Char}

theorem mem (h : IsLiteral literal) : ∀ c ∈ literal, isDecimalDigit c = true ∨ c = '.' := by
  obtain ⟨whole, fraction, -, hd, rfl⟩ := h
  intro c hc
  rcases List.mem_append.mp hc with hc | hc
  · exact .inl (hd c (List.mem_append_left _ hc))
  split at hc
  · cases hc
  · rcases List.mem_cons.mp hc with rfl | hc
    · exact .inr rfl
    · exact .inl (hd c (List.mem_append_right _ hc))

theorem exists_getLast (h : IsLiteral literal) :
    ∃ c, literal.getLast? = some c ∧ isDecimalDigit c = true := by
  obtain ⟨whole, fraction, hne, hd, rfl⟩ := h
  split
  · rw [List.append_nil]
    exact ⟨whole.getLast hne, List.getLast?_eq_some_getLast hne,
      hd _ (List.mem_append_left _ (List.getLast_mem hne))⟩
  · rename_i hf
    refine ⟨fraction.getLast hf, ?_, hd _ (List.mem_append_right _ (List.getLast_mem hf))⟩
    rw [List.getLast?_append, List.getLast?_cons, List.getLast?_eq_some_getLast hf]
    rfl

theorem cons {d : Char} (h : IsLiteral literal) (hd : isDecimalDigit d = true) :
    IsLiteral (d :: literal) := by
  obtain ⟨whole, fraction, -, hall, rfl⟩ := h
  refine ⟨d :: whole, fraction, List.cons_ne_nil _ _, ?_, rfl⟩
  rintro c (_ | ⟨_, hc⟩)
  · exact hd
  · exact hall c hc

end IsLiteral

section

variable {sign : Char} {text literal : List Char}

/-! ## The literal before a sign -/

theorem exists_after_of_literalBefore? (h : literalBefore? sign text = some literal) :
    IsLiteral literal ∧ ∃ after, text = literal ++ sign :: after := by
  have ht : text.takeWhile isDecimalDigit ++ text.dropWhile isDecimalDigit = text :=
    List.takeWhile_append_dropWhile
  have hw : ∀ c ∈ text.takeWhile isDecimalDigit, isDecimalDigit c = true := fun c hc =>
    List.all_eq_true.mp List.all_takeWhile c hc
  simp only [literalBefore?] at h
  split at h
  · cases h
  rename_i hne
  have hne : text.takeWhile isDecimalDigit ≠ [] := by simpa using hne
  split at h
  · cases h
  rename_i c rest hd
  rw [hd] at ht
  split at h
  · rename_i hc
    obtain rfl := Option.some.inj h
    obtain rfl : c = sign := by simpa using hc
    exact ⟨⟨_, [], hne, by simpa using hw, by simp⟩, rest, ht.symm⟩
  split at h
  · rename_i hf
    obtain rfl := Option.some.inj h
    simp only [Bool.and_eq_true, beq_iff_eq, Bool.not_eq_true'] at hf
    obtain ⟨⟨rfl, hfne⟩, hsign⟩ := hf
    obtain ⟨after, hr⟩ := List.head?_eq_some_iff.mp hsign
    have hrest : rest.takeWhile isDecimalDigit ++ rest.dropWhile isDecimalDigit = rest :=
      List.takeWhile_append_dropWhile
    have hfne : rest.takeWhile isDecimalDigit ≠ [] := by
      intro hnil
      simp [hnil] at hfne
    refine ⟨⟨_, rest.takeWhile isDecimalDigit, hne, ?_, by rw [if_neg hfne]⟩, after, ?_⟩
    · intro c hc
      rcases List.mem_append.mp hc with hc | hc
      · exact hw c hc
      · exact List.all_eq_true.mp List.all_takeWhile c hc
    · rw [hr] at hrest
      rw [List.append_assoc, List.cons_append, hrest, ht]
  · cases h

theorem literalBefore?_of_isLiteral (hs : isDecimalDigit sign = false) (hp : sign ≠ '.')
    (h : IsLiteral literal) (after : List Char) :
    literalBefore? sign (literal ++ sign :: after) = some literal := by
  obtain ⟨whole, fraction, hne, hd, rfl⟩ := h
  have hw : ∀ c ∈ whole, isDecimalDigit c = true := fun c hc => hd c (List.mem_append_left _ hc)
  have hf : ∀ c ∈ fraction, isDecimalDigit c = true := fun c hc => hd c (List.mem_append_right _ hc)
  cases fraction with
  | nil =>
      simp [literalBefore?, List.takeWhile_append_of_pos hw, List.dropWhile_append_of_pos hw, hs, hne]
  | cons d fraction =>
      have hdot : isDecimalDigit '.' = false := by decide
      have ht : (d :: fraction ++ sign :: after).takeWhile isDecimalDigit = d :: fraction := by
        rw [List.takeWhile_append_of_pos hf, List.takeWhile_cons_of_neg (by simp [hs]), List.append_nil]
      have hr : (d :: fraction ++ sign :: after).dropWhile isDecimalDigit = sign :: after := by
        rw [List.dropWhile_append_of_pos hf, List.dropWhile_cons_of_neg (by simp [hs])]
      simp only [List.cons_append] at ht hr
      simp [literalBefore?, List.takeWhile_append_of_pos hw, List.dropWhile_append_of_pos hw, hdot, hne,
        ht, hr, hp.symm]

/-- A literal begins where its digits begin, so behind a digit that is not taken there is none. -/
theorem literalBefore?_of_cons (hs : isDecimalDigit sign = false) (hp : sign ≠ '.') {d : Char}
    (hd : isDecimalDigit d = true) (h : literalBefore? sign (d :: text) = none) :
    literalBefore? sign text = none := by
  cases hl : literalBefore? sign text with
  | none => rfl
  | some literal =>
      obtain ⟨hlit, after, rfl⟩ := exists_after_of_literalBefore? hl
      rw [← List.cons_append, literalBefore?_of_isLiteral hs hp (hlit.cons hd)] at h
      cases h

/-! ## The rule -/

variable {before after : String}

theorem signRule_takes (sign : Char) (before after : String) : Takes (signRule sign before after) where
  positive previous text r h := by
    obtain ⟨literal, -, rfl⟩ := Option.map_eq_some_iff.mp h
    exact Nat.succ_pos _
  bounded previous text r h := by
    obtain ⟨literal, hl, rfl⟩ := Option.map_eq_some_iff.mp h
    obtain ⟨-, rest, rfl⟩ := exists_after_of_literalBefore? hl
    simp only [List.length_append, List.length_cons]
    omega

/-- What the rule takes is a literal with its sign. -/
theorem taken_of_signRule {previous : Option Char} {taken rest : List Char} {r : Replacement}
    (h : signRule sign before after previous (taken ++ rest) = some r) (hl : r.length = taken.length) :
    ∃ literal, IsLiteral literal ∧ taken = literal ++ [sign] ∧
      r.written = before.toList ++ literal ++ after.toList := by
  obtain ⟨literal, hlit, rfl⟩ := Option.map_eq_some_iff.mp h
  obtain ⟨hlit, after, ht⟩ := exists_after_of_literalBefore? hlit
  rw [← List.singleton_append, ← List.append_assoc] at ht
  exact ⟨literal, hlit, (List.append_inj ht (by simpa using hl.symm)).1, rfl⟩

end

end DeskCalculator.Canonical
