import DeskCalculator.Proofs.Canonical.Expansion
import DeskCalculator.Proofs.Checked.TrigCall
import Mathlib.Order.Bounds.Basic

/-!
# Parentheses that match

A parenthesis is closed at the first offset up to which all is balanced, and at none if there is no such
offset. Between a parenthesis and the one that closes it, each further one is closed within.
-/

namespace DeskCalculator.Checked

open Canonical Parenthesis DeskCalculator.Except

/-- The parenthesis at one offset is closed by that at another. -/
def Matches (text : List Char) (opening closing : Nat) : Prop :=
  ∃ before inner after, text = before ++ '(' :: (inner ++ ')' :: after) ∧ Balanced (ofText inner) ∧
    opening = size before ∧ closing = size (before ++ '(' :: inner)

/-- The piece of the text from one offset up to and with another is balanced. -/
def BalancedTo (text : List Char) (start stop : Nat) : Prop :=
  start ≤ stop ∧ ∃ piece, slice text start (stop + 1) = .ok piece ∧ Balanced (ofText piece)

theorem size_opening (text : List Char) : size ('(' :: text) = size text + 1 :=
  (size_cons _ _).trans (Nat.add_comm 1 _)

theorem size_closing (text : List Char) : size (')' :: text) = size text + 1 :=
  (size_cons _ _).trans (Nat.add_comm 1 _)

/-- A piece that starts at a parenthesis and is not empty. -/
theorem BalancedTo.exists_inner {before argument : List Char} {i : Nat}
    (h : BalancedTo (before ++ '(' :: argument) (size before) i) :
    ∃ inner after, argument = inner ++ after ∧ openAfter 1 (ofText inner) = some 0 ∧
      i = size before + size inner := by
  obtain ⟨hle, piece, hp, hb⟩ := h
  obtain ⟨before', after, ht, hs, hstop⟩ := exists_of_slice hp
  obtain ⟨rfl, hargument⟩ := eq_of_size_eq ht hs.symm
  rw [size_append] at hstop
  cases piece with
  | nil =>
      rw [size_nil] at hstop
      omega
  | cons x inner =>
      obtain ⟨rfl, rfl⟩ : '(' = x ∧ argument = inner ++ after := List.cons.inj hargument
      rw [size_opening] at hstop
      exact ⟨inner, after, rfl, hb, by omega⟩

/-- Up to the parenthesis that closes it, the one that was opened stays open. -/
theorem Matches.isLeast {text : List Char} {opening i : Nat} (h : Matches text opening i) :
    IsLeast {i | BalancedTo text opening i} i := by
  obtain ⟨before, inner, after, rfl, hb, rfl, rfl⟩ := h
  refine ⟨⟨?_, '(' :: (inner ++ [')']), ?_, ?_⟩, fun j hj => ?_⟩
  · rw [size_append]
    exact Nat.le_add_right ..
  · have hs := slice_append before ('(' :: (inner ++ [')'])) after
    have hsize : size (before ++ '(' :: (inner ++ [')'])) = size (before ++ '(' :: inner) + 1 := by
      simp only [size_append, size_opening, size_closing, size_nil]
      omega
    rw [hsize] at hs
    simpa using hs
  · simpa using hb.group
  · obtain ⟨inner', after', hi, ho, rfl⟩ := hj.exists_inner
    by_contra hlt
    rw [size_append, size_opening] at hlt
    obtain ⟨e, rfl, -⟩ := exists_of_size_le hi.symm (by omega)
    rw [Parenthesis.Balanced, ofText_append, openAfter_append] at hb
    obtain ⟨k, hk, -⟩ := Option.bind_eq_some_iff.mp hb
    have := openAfter_add hk 1
    rw [Nat.zero_add, ho] at this
    cases this

section

variable {before argument : List Char}

theorem matches_of_closing {i : Nat}
    (h : closing (before ++ '(' :: argument) (size before) = .ok (some i)) :
    Matches (before ++ '(' :: argument) (size before) i := by
  rw [closing_append] at h
  obtain ⟨n, hn, rfl⟩ := Option.map_eq_some_iff.mp (Except.ok.inj h)
  obtain ⟨inner, after, rfl, rfl, hb⟩ := exists_closes hn
  refine ⟨before, inner, after, rfl, hb, rfl, ?_⟩
  rw [List.take_left, size_append, size_opening]
  omega

theorem not_balancedTo_of_closing (h : closing (before ++ '(' :: argument) (size before) = .ok none)
    (i : Nat) :
    ¬ BalancedTo (before ++ '(' :: argument) (size before) i := by
  intro hi
  obtain ⟨inner, after, rfl, ho, -⟩ := hi.exists_inner
  obtain ⟨offset, hoff⟩ := @exists_closingOffset 0 0 0 inner ho (Nat.le_refl 0)
  rw [closing_append, closingOffset?_append hoff after] at h
  cases h

theorem exists_closing (before argument : List Char) :
    ∃ r, closing (before ++ '(' :: argument) (size before) = .ok r :=
  ⟨_, closing_append before argument⟩

theorem closing_eq_some_iff {i : Nat} :
    closing (before ++ '(' :: argument) (size before) = .ok (some i) ↔
    Matches (before ++ '(' :: argument) (size before) i := by
  refine ⟨matches_of_closing, fun h => ?_⟩
  obtain ⟨r, hr⟩ := exists_closing before argument
  cases r with
  | none => exact absurd h.isLeast.1 (not_balancedTo_of_closing hr i)
  | some j => rw [hr, (matches_of_closing hr).isLeast.unique h.isLeast]

theorem matches_iff_isLeast {i : Nat} : Matches (before ++ '(' :: argument) (size before) i ↔
    IsLeast {i | BalancedTo (before ++ '(' :: argument) (size before) i} i := by
  refine ⟨Matches.isLeast, fun h => ?_⟩
  obtain ⟨r, hr⟩ := exists_closing before argument
  cases r with
  | none => exact absurd h.1 (not_balancedTo_of_closing hr i)
  | some j =>
      have hj := matches_of_closing hr
      rwa [h.unique hj.isLeast]

theorem closing_eq_none_iff : closing (before ++ '(' :: argument) (size before) = .ok none ↔
    ∀ i, ¬ BalancedTo (before ++ '(' :: argument) (size before) i := by
  refine ⟨not_balancedTo_of_closing, fun h => ?_⟩
  obtain ⟨r, hr⟩ := exists_closing before argument
  cases r with
  | none => exact hr
  | some j => exact absurd (matches_of_closing hr).isLeast.1 (h j)

end

theorem Matches.lt {text : List Char} {opening i : Nat} (h : Matches text opening i) : opening < i := by
  obtain ⟨before, inner, after, -, -, rfl, rfl⟩ := h
  rw [size_append, size_opening]
  omega

theorem Matches.unique {text : List Char} {opening i j : Nat} (h : Matches text opening i)
    (h' : Matches text opening j) :
    i = j :=
  h.isLeast.unique h'.isLeast

/-- At the offset stands a parenthesis that closes. -/
theorem Matches.closing_parts {text : List Char} {opening i : Nat} (h : Matches text opening i) :
    ∃ before after, text = before ++ ')' :: after ∧ i = size before := by
  obtain ⟨before, inner, after, rfl, -, -, rfl⟩ := h
  exact ⟨before ++ '(' :: inner, after, by simp, rfl⟩

/-- A parenthesis within others that match is closed within them. -/
theorem Matches.inner {text before rest : List Char} {opening i : Nat} (h : Matches text opening i)
    (ht : text = before ++ '(' :: rest) (ho : opening < size before) (hi : size before < i) :
    ∃ j, Matches text (size before) j ∧ j < i := by
  obtain ⟨b, inner, after, ht', hb, rfl, rfl⟩ := h
  obtain ⟨e, rfl, he⟩ := exists_of_size_le (ht'.symm.trans ht) (Nat.le_of_lt ho)
  cases e with
  | nil => simp at ho
  | cons x e =>
      obtain ⟨rfl, hinner⟩ : '(' = x ∧ inner ++ ')' :: after = e ++ '(' :: rest := List.cons.inj he
      simp only [size_append, size_opening] at hi
      obtain ⟨f, rfl, hf⟩ := exists_of_size_le hinner.symm (by omega)
      cases f with
      | nil => simp at hi
      | cons y f =>
          obtain ⟨rfl, rfl⟩ := List.cons.inj hf
          rw [Parenthesis.Balanced, ofText_append, openAfter_append] at hb
          obtain ⟨k, -, hk⟩ := Option.bind_eq_some_iff.mp hb
          have hk : openAfter (0 + 1 + k) (ofText f) = some 0 := by
            rw [Nat.zero_add, Nat.add_comm]
            exact hk
          obtain ⟨offset, hoff⟩ := exists_closingOffset hk (Nat.zero_le k)
          obtain ⟨inner, after', rfl, -, hbalanced⟩ := exists_closes hoff
          refine ⟨_, ⟨b ++ '(' :: e, inner, after' ++ ')' :: after, ?_, hbalanced, rfl, rfl⟩, ?_⟩
          · rw [ht]
            simp
          · simp only [size_append, size_opening, size_closing]
            omega

end DeskCalculator.Checked
