import DeskCalculator.Proofs.Canonical.TrigCall
import DeskCalculator.Proofs.Canonical.Words

/-!
# Canonical texts of parts

The canonical text of a typed text is put together from those of its parts: the sides of a sign, what
stands in parentheses, and the argument of a function.
-/

namespace DeskCalculator.Canonical

open Parenthesis

/-- What was typed closes what it opens. -/
def IsBalanced (raw : List Char) : Prop := Balanced (ofText (beforeTrig raw))

@[simp] theorem beforeTrig_nil : beforeTrig [] = [] := rfl

@[simp] theorem text_nil (mode : AngleMode) : text mode [] = [] := rfl

theorem IsBalanced.nil : IsBalanced [] := rfl

/-! ## Signs and parentheses -/

section

variable {mode : AngleMode} {raw rest : List Char}

theorem expandTrig_signs {signs text rest : List Char} (hs : ∀ c ∈ signs, c ∈ marks ∧ c ≠ '(' ∧ c ≠ ')')
    (hne : signs ≠ []) (hb : Balanced (ofText text)) :
    expandTrig mode (text ++ signs ++ rest) = expandTrig mode text ++ signs ++ expandTrig mode rest := by
  induction signs generalizing text with
  | nil => exact absurd rfl hne
  | cons c signs ih =>
      obtain ⟨hc, ho, -⟩ := hs c (by simp)
      cases signs with
      | nil => simpa using expandTrig_append hc ho hb
      | cons d signs =>
          have := @ih [] (fun e he => hs e (by simp_all)) (by simp) rfl
          simp only [List.nil_append, List.append_assoc, List.cons_append] at this ⊢
          rw [expandTrig_append hc ho hb, this]
          rfl

theorem powerSign_of_sign {c : Char} (hc : c ∈ marks) (ho : c ≠ '(') (hcl : c ≠ ')') :
    ∀ d ∈ powerSign c, d ∈ marks ∧ d ≠ '(' ∧ d ≠ ')' := by
  intro d hd
  rcases mem_powerSign hd with rfl | rfl
  · decide
  · exact ⟨hc, ho, hcl⟩

theorem text_append {c : Char} (hc : asciiSign c ∈ marks) (ho : asciiSign c ≠ '(')
    (hcl : asciiSign c ≠ ')') (hb : IsBalanced raw) :
    text mode (raw ++ c :: rest) = text mode raw ++ powerSign (asciiSign c) ++ text mode rest := by
  rw [text, beforeTrig_append hc ho]
  exact expandTrig_signs (powerSign_of_sign hc ho hcl) (powerSign_ne_nil _) hb

theorem ofText_powerSign {c : Char} (hc : c ∈ marks) (ho : c ≠ '(') (hcl : c ≠ ')') :
    ofText (powerSign c) = [] :=
  ofText_eq_nil_iff.mpr fun d hd => (powerSign_of_sign hc ho hcl d hd).2

theorem IsBalanced.append {c : Char} (hc : asciiSign c ∈ marks) (ho : asciiSign c ≠ '(')
    (hcl : asciiSign c ≠ ')') (hl : IsBalanced raw) (hr : IsBalanced rest) :
    IsBalanced (raw ++ c :: rest) := by
  rw [IsBalanced, beforeTrig_append hc ho, ofText_append, ofText_append, ofText_powerSign hc ho hcl,
    List.append_nil]
  exact Balanced.append hl hr

theorem beforeTrig_closing (raw rest : List Char) :
    beforeTrig (raw ++ ')' :: rest) = beforeTrig raw ++ ')' :: beforeTrig rest := by
  have := @beforeTrig_append ')' (by decide) (by decide) raw rest
  simpa [show powerSign (asciiSign ')') = [')'] by decide] using this

theorem text_group (hb : IsBalanced raw) :
    text mode ('(' :: (raw ++ ')' :: rest)) = '(' :: (text mode raw ++ ')' :: text mode rest) := by
  rw [text, beforeTrig_opening, beforeTrig_closing]
  exact expandTrig_group hb

theorem IsBalanced.group (hb : IsBalanced raw) : IsBalanced ('(' :: (raw ++ [')'])) := by
  rw [IsBalanced, beforeTrig_opening, beforeTrig_closing]
  simpa using Balanced.group hb

/-! ## Calls -/

/-- What is written around the argument of a function. -/
def callText (mode : AngleMode) (f : NamedFunction) : Wrapping :=
  match typedName f with
  | some n => if isTrig f then wrapping mode n.toList else ⟨f.name.toList ++ ['('], [')']⟩
  | none => ⟨f.name.toList ++ ['('], [')']⟩

theorem callFree_name : ∀ f, isTrig f = false → callFree f.name.toList = true := by
  intro f
  cases f <;> decide

theorem trigName_mem {f : NamedFunction} {n : String} (h : typedName f = some n) (ht : isTrig f = true) :
    n ∈ trigNames := by
  cases f <;> cases h <;> first | decide | cases ht

theorem text_call {f : NamedFunction} {word : List Char} (h : IsTyped f word) (hb : IsBalanced raw) :
    text mode (word ++ '(' :: (raw ++ ')' :: rest)) =
      (callText mode f).before ++ text mode raw ++ (callText mode f).after ++ text mode rest := by
  rw [text, h.beforeTrig_call, beforeTrig_closing]
  have hl := h.isLetters
  obtain ⟨n, hn, hw⟩ := h
  cases ht : isTrig f with
  | false =>
      simp [callText, hn, ht, writtenName, expandTrig_callFree (callFree_name f ht) hb, text]
  | true =>
      have ho : ∀ n ∈ trigNames, '(' ∉ n.toList := fun n hn => opening_not_mem_names n (by simp [hn])
      have hc :=
        calledName?_word (trigName_mem hn ht) ho hl hw (beforeTrig raw ++ ')' :: beforeTrig rest)
      have hlen : word.length = n.toList.length := by rw [← hw, List.length_map]
      simp only [callText, hn, ht, writtenName, if_true, expandTrig_call hb hc hlen, text]

theorem IsBalanced.call {f : NamedFunction} {word : List Char} (h : IsTyped f word)
    (hb : IsBalanced raw) :
    IsBalanced (word ++ '(' :: (raw ++ [')'])) := by
  have hname : ofText (writtenName f word) = [] := by
    unfold writtenName
    split
    · refine ofText_eq_nil_iff.mpr fun c hc => ?_
      refine ⟨?_, ?_⟩ <;> rintro rfl <;> exact absurd (h.isLetters _ hc) (by decide)
    · cases f <;> decide
  rw [IsBalanced, h.beforeTrig_call, beforeTrig_closing, ofText_append, hname]
  simpa using Balanced.group hb

end

end DeskCalculator.Canonical
