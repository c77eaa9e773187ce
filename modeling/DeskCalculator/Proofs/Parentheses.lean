import DeskCalculator.Proofs.Grammar

/-!
# Parentheses

The parentheses of a text are those of its tokens, and every phrase of the grammar closes what it
opens.
-/

namespace DeskCalculator

inductive Parenthesis where
  | opening
  | closing
deriving DecidableEq

namespace Parenthesis

open Grammar

def ofChar? : Char → Option Parenthesis
  | '(' => some .opening
  | ')' => some .closing
  | _ => none

def ofToken? : Token → Option Parenthesis
  | .opening => some .opening
  | .closing => some .closing
  | _ => none

def ofText (text : List Char) : List Parenthesis := text.filterMap ofChar?

abbrev ofTokens (tokens : List Token) : List Parenthesis := tokens.filterMap ofToken?

@[simp] theorem ofText_nil : ofText [] = [] := rfl

@[simp] theorem ofText_append (text rest : List Char) :
    ofText (text ++ rest) = ofText text ++ ofText rest :=
  List.filterMap_append

@[simp] theorem ofText_opening (text : List Char) : ofText ('(' :: text) = .opening :: ofText text := rfl

@[simp] theorem ofText_closing (text : List Char) : ofText (')' :: text) = .closing :: ofText text := rfl

theorem ofText_other {c : Char} (ho : c ≠ '(') (hc : c ≠ ')') (text : List Char) :
    ofText (c :: text) = ofText text := by
  have : ofChar? c = none := by
    unfold ofChar?
    split <;> simp_all
  simp [ofText, this]

theorem ofText_eq_nil_iff {text : List Char} : ofText text = [] ↔ ∀ c ∈ text, c ≠ '(' ∧ c ≠ ')' := by
  induction text with
  | nil => simp
  | cons c text ih =>
      by_cases ho : c = '('
      · simp [ho]
      by_cases hc : c = ')'
      · simp [hc]
      · simp [ofText_other ho hc, ih, ho, hc]

/-! ## Open parentheses -/

/-- How many parentheses are open at the end when `n` are at the start; there is no answer if one closes that
was not opened. -/
def openAfter : (n : Nat) → List Parenthesis → Option Nat
  | n, [] => some n
  | n, .opening :: ps => openAfter (n + 1) ps
  | 0, .closing :: _ => none
  | n + 1, .closing :: ps => openAfter n ps

abbrev Balanced (ps : List Parenthesis) : Prop := openAfter 0 ps = some 0

theorem openAfter_append (n : Nat) (ps qs : List Parenthesis) :
    openAfter n (ps ++ qs) = (openAfter n ps).bind (openAfter · qs) := by
  induction ps generalizing n with
  | nil => rfl
  | cons p ps ih =>
      cases p with
      | opening => exact ih (n + 1)
      | closing =>
          cases n with
          | zero => rfl
          | succ n => exact ih n

theorem openAfter_add {n k : Nat} {ps : List Parenthesis} (h : openAfter n ps = some k) (m : Nat) :
    openAfter (n + m) ps = some (k + m) := by
  induction ps generalizing n with
  | nil =>
      obtain rfl := Option.some.inj h
      rfl
  | cons p ps ih =>
      cases p with
      | opening =>
          have := ih h
          rwa [Nat.add_right_comm] at this
      | closing =>
          cases n with
          | zero => cases h
          | succ n =>
              rw [Nat.add_right_comm]
              exact ih h

theorem Balanced.openAfter {ps : List Parenthesis} (h : Balanced ps) (n : Nat) :
    openAfter n ps = some n := by
  simpa using openAfter_add h n

theorem openAfter_replicate_opening (n m : Nat) (ps : List Parenthesis) :
    openAfter n (List.replicate m .opening ++ ps) = openAfter (n + m) ps := by
  induction m generalizing n with
  | zero => rfl
  | succ m ih =>
      rw [List.replicate_succ, List.cons_append, Parenthesis.openAfter, ih, Nat.add_right_comm]
      rfl

theorem openAfter_replicate_closing (n m : Nat) (ps : List Parenthesis) :
    openAfter (n + m) (List.replicate m .closing ++ ps) = openAfter n ps := by
  induction m with
  | zero => rfl
  | succ m ih => exact ih

theorem Balanced.append {ps qs : List Parenthesis} (hp : Balanced ps) (hq : Balanced qs) :
    Balanced (ps ++ qs) := by
  rw [Balanced, openAfter_append, hp]
  exact hq

theorem Balanced.group {ps : List Parenthesis} (h : Balanced ps) :
    Balanced (.opening :: (ps ++ [.closing])) := by
  rw [Balanced, Parenthesis.openAfter, openAfter_append, h.openAfter]
  rfl

/-! ## Phrases -/

theorem balanced_of_derives {c : Category} {ts : List Token} {t : ParseTree} (h : Derives c ts t) :
    Balanced (ofTokens ts) := by
  induction h with
  | number x | constant c | done l a => rfl
  | call _ ih | group _ ih => simpa [List.filterMap_cons, ofToken?] using ih.group
  | bare _ ih | unsigned _ ih | plus _ ih | minus _ ih => exact ih
  | raised _ _ iha ihb | chain _ _ iha ihb | join _ _ _ iha ihb =>
      simpa [List.filterMap_cons, ofToken?] using iha.append ihb

end Parenthesis

end DeskCalculator
