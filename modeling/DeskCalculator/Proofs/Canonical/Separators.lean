import DeskCalculator.Canonical
import DeskCalculator.Proofs.Canonical.Literal

/-!
# Separators of canonical texts

Operators and parentheses belong to no number and to no word. The rules before the trigonometric
calls never match across one of them, except that a function takes the parenthesis behind its name.
-/

namespace DeskCalculator.Canonical

open Character Rule

/-! ## Marks -/

/-- The signs between the operands of an arithmetic text, and the parentheses. -/
def marks : List Char := ['(', ')', '+', '-', '*', '/', '^']

theorem isWord_of_mark : ∀ c ∈ marks, isWord c = false := forall_mem_of_all (by decide)

theorem isDecimalDigit_of_mark : ∀ c ∈ marks, isDecimalDigit c = false := forall_mem_of_all (by decide)

theorem ne_of_mark :
    ∀ c ∈ marks, c ≠ '.' ∧ c ≠ '%' ∧ c ≠ '!' ∧ c ≠ 'e' ∧ c ≠ 'ſ' ∧ isPiLetter c = false ∧
    c.toLower.isAlpha = false := forall_mem_of_all (by decide)

theorem spells_of_mark {letter c : Char} (hl : letter.isAlpha = true) (hc : c ∈ marks) :
    spells letter c = false := by
  obtain ⟨-, -, -, -, hs, -, hlower⟩ := ne_of_mark c hc
  have : c.toLower ≠ letter := by
    rintro rfl
    simp [hl] at hlower
  simp [spells, this, hs]

theorem startsWord_of_mark {c : Char} (h : c ∈ marks) : startsWord (some c) = startsWord none := by
  simp [startsWord, isWord_of_mark c h]

theorem endsWord_append {c : Char} (h : c ∈ marks) (text rest : List Char) :
    endsWord (text ++ c :: rest) = endsWord text := by
  cases text with
  | nil => simp [endsWord, isWord_of_mark c h]
  | cons d text => rfl

/-! ## Signs behind a number -/

theorem takeWhile_append_of_neg {p : Char → Bool} {c : Char} (h : p c = false) (text rest : List Char) :
    (text ++ c :: rest).takeWhile p = text.takeWhile p := by
  induction text with
  | nil => simp [h]
  | cons d text ih => simp [List.takeWhile_cons, ih]

theorem dropWhile_append_of_neg {p : Char → Bool} {c : Char} (h : p c = false) (text rest : List Char) :
    (text ++ c :: rest).dropWhile p = text.dropWhile p ++ c :: rest := by
  induction text with
  | nil => simp [h]
  | cons d text ih =>
      cases hd : p d with
      | true => simp [hd, ih]
      | false => simp [hd]

theorem literalBefore?_append {sign c : Char} (hd : isDecimalDigit c = false) (hp : c ≠ '.')
    (hs : c ≠ sign) (text rest : List Char) :
    literalBefore? sign (text ++ c :: rest) = literalBefore? sign text := by
  simp only [literalBefore?, takeWhile_append_of_neg hd, dropWhile_append_of_neg hd]
  cases text.dropWhile isDecimalDigit with
  | nil => simp [hs, hp]
  | cons d ds =>
      simp only [List.cons_append, takeWhile_append_of_neg hd, dropWhile_append_of_neg hd]
      cases ds.dropWhile isDecimalDigit with
      | nil => simp [hs]
      | cons e es => rfl

theorem signRule_separates {sign c : Char} {before after : String} (hd : isDecimalDigit c = false)
    (hp : c ≠ '.') (hs : c ≠ sign) : Separates (signRule sign before after) c where
  here previous rest := by
    simp [signRule, literalBefore?, hd]
  after _ := rfl
  before previous text rest := by
    simp only [signRule, literalBefore?_append hd hp hs]

theorem percent_separates {c : Char} (hc : c ∈ marks) : Separates percent c :=
  signRule_separates (isDecimalDigit_of_mark c hc) (ne_of_mark c hc).1 (ne_of_mark c hc).2.1

theorem factorial_separates {c : Char} (hc : c ∈ marks) : Separates factorial c :=
  signRule_separates (isDecimalDigit_of_mark c hc) (ne_of_mark c hc).1 (ne_of_mark c hc).2.2.1

theorem percent_bounded : Bounded percent := (signRule_takes _ _ _).bounded

theorem factorial_bounded : Bounded factorial := (signRule_takes _ _ _).bounded

/-! ## Constants -/

theorem pi_separates {c : Char} (hc : c ∈ marks) : Separates pi c where
  here previous rest := by
    have hp := @spells_of_mark 'p' c rfl hc
    have hl := (ne_of_mark c hc).2.2.2.2.2.1
    cases rest <;> simp only [pi, hp, hl, Bool.and_false, Bool.false_and, Bool.false_eq_true, if_false]
  after text := by
    unfold pi
    rw [startsWord_of_mark hc]
  before previous text rest := by
    have hp := @spells_of_mark 'p' c rfl hc
    have hi := @spells_of_mark 'i' c rfl hc
    have hl := (ne_of_mark c hc).2.2.2.2.2.1
    match text with
    | [] =>
        cases rest <;>
          simp only [pi, List.nil_append, hp, hl, Bool.and_false, Bool.false_and, Bool.false_eq_true,
            if_false]
    | [d] =>
        simp only [pi, List.cons_append, List.nil_append, hi, Bool.and_false, Bool.false_and,
          Bool.false_eq_true, if_false]
    | d :: e :: text => simp only [pi, List.cons_append, endsWord_append hc]

theorem pi_bounded : Bounded pi := by
  intro previous text r h
  unfold pi at h
  split at h
  · cases h
  split at h
  · obtain rfl := Option.some.inj h
    simp
  split at h
  · cases h
  split at h
  · obtain rfl := Option.some.inj h
    simp
  · cases h

theorem euler_separates {c : Char} (hc : c ∈ marks) : Separates euler c where
  here previous rest := by
    have he : c ≠ 'e' := (ne_of_mark c hc).2.2.2.1
    simp [euler, he]
  after text := by
    unfold euler
    rw [startsWord_of_mark hc]
  before previous text rest := by
    have he : c ≠ 'e' := (ne_of_mark c hc).2.2.2.1
    cases text with
    | nil => simp [euler, he]
    | cons d text => simp only [euler, List.cons_append, endsWord_append hc]

theorem euler_bounded : Bounded euler := by
  intro previous text r h
  unfold euler at h
  split at h
  · cases h
  split at h
  · obtain rfl := Option.some.inj h
    simp
  · cases h

/-! ## Functions -/

theorem startsWithCall_append {name text rest : List Char} {c : Char} (hc : c ≠ '(')
    (hn : ∀ letter ∈ name, spells letter c = false) :
    startsWithCall name (text ++ c :: rest) = startsWithCall name text := by
  induction name generalizing text with
  | nil => cases text <;> simp [startsWithCall, hc]
  | cons letter letters ih =>
      cases text with
      | nil => simp [startsWithCall, hn letter (by simp)]
      | cons d text => simp [startsWithCall, ih fun l hl => hn l (by simp [hl])]

theorem length_of_startsWithCall {name text : List Char} (h : startsWithCall name text = true) :
    name.length + 1 ≤ text.length := by
  induction name generalizing text with
  | nil => cases text <;> simp_all [startsWithCall]
  | cons letter letters ih =>
      cases text with
      | nil => simp [startsWithCall] at h
      | cons d text =>
          simp only [startsWithCall, Bool.and_eq_true] at h
          simpa using ih h.2

theorem calledName?_append {names : List String} {previous : Option Char} {text rest : List Char}
    {c : Char} (hc : c ≠ '(') (hn : ∀ name ∈ names, ∀ letter ∈ name.toList, spells letter c = false) :
    calledName? names previous (text ++ c :: rest) = calledName? names previous text := by
  have hf : names.find? (fun name => startsWithCall name.toList (text ++ c :: rest)) =
      names.find? (fun name => startsWithCall name.toList text) := by
    induction names with
    | nil => rfl
    | cons name names ih =>
        simp only [List.find?_cons, startsWithCall_append hc (hn name (by simp)),
          ih fun n hm => hn n (by simp [hm])]
  unfold calledName?
  rw [hf]
  cases hf : names.find? (fun name => startsWithCall name.toList text) with
  | none => rfl
  | some name =>
      have hl := length_of_startsWithCall
        (List.find?_some (p := fun name : String => startsWithCall name.toList text) hf)
      rw [String.length_toList] at hl
      simp only [Option.map_some, List.take_append_of_le_length (Nat.le_of_succ_le hl)]

theorem calledName?_eq_some {names : List String} {previous : Option Char} {text name : List Char}
    (h : calledName? names previous text = some name) : startsWord previous = true ∧ ∃ n ∈ names,
      startsWithCall n.toList text = true ∧ name = (text.take n.length).map Char.toLower := by
  unfold calledName? at h
  split at h
  · rename_i hw
    obtain ⟨n, hf, rfl⟩ := Option.map_eq_some_iff.mp h
    exact ⟨hw, n, List.mem_of_find?_eq_some hf,
      List.find?_some (p := fun name : String => startsWithCall name.toList text) hf, rfl⟩
  · cases h

theorem calledName?_mark {names : List String} {previous : Option Char} {rest : List Char} {c : Char}
    (hn : ∀ name ∈ names, name.toList ≠ [] ∧ ∀ letter ∈ name.toList, spells letter c = false) :
    calledName? names previous (c :: rest) = none := by
  cases hc : calledName? names previous (c :: rest) with
  | none => rfl
  | some name =>
      obtain ⟨-, n, hm, hs, -⟩ := calledName?_eq_some hc
      obtain ⟨hne, hl⟩ := hn n hm
      cases hl' : n.toList with
      | nil => exact absurd hl' hne
      | cons letter letters => simp [hl', startsWithCall, hl letter (by simp [hl'])] at hs

theorem calledName?_after {names : List String} {text : List Char} {c : Char} (hc : c ∈ marks) :
    calledName? names (some c) text = calledName? names none text := by
  unfold calledName?
  rw [startsWord_of_mark hc]

theorem letters_of_names :
    ∀ n ∈ functionNames ++ trigNames, n.toList ≠ [] ∧ n.toList.all Char.isAlpha = true := by
  decide

theorem names_of_mark {c : Char} (hc : c ∈ marks) : ∀ n ∈ functionNames ++ trigNames,
    n.toList ≠ [] ∧ ∀ letter ∈ n.toList, spells letter c = false := by
  intro n hn
  obtain ⟨hne, hl⟩ := letters_of_names n hn
  exact ⟨hne, fun letter hm => spells_of_mark (List.all_eq_true.mp hl letter hm) hc⟩

theorem functionNames_of_mark {c : Char} (hc : c ∈ marks) : ∀ name ∈ functionNames,
    name.toList ≠ [] ∧ ∀ letter ∈ name.toList, spells letter c = false :=
  fun name hn => names_of_mark hc name (by simp [hn])

theorem trigNames_of_mark {c : Char} (hc : c ∈ marks) : ∀ name ∈ trigNames,
    name.toList ≠ [] ∧ ∀ letter ∈ name.toList, spells letter c = false :=
  fun name hn => names_of_mark hc name (by simp [hn])

theorem functionCall_opens {c : Char} (hc : c ∈ marks) : Opens functionCall c where
  here previous rest := by
    simp only [functionCall, calledName?_mark (functionNames_of_mark hc), Option.map_none]
  after text := by
    simp only [functionCall, calledName?_after hc]

theorem functionCall_separates {c : Char} (hc : c ∈ marks) (ho : c ≠ '(') :
    Separates functionCall c where
  toOpens := functionCall_opens hc
  before previous text rest := by
    simp only [functionCall, calledName?_append ho fun name hm => (functionNames_of_mark hc name hm).2]

theorem functionCall_bounded : Bounded functionCall := by
  intro previous text r h
  obtain ⟨name, hn, rfl⟩ := Option.map_eq_some_iff.mp h
  obtain ⟨-, n, -, hs, rfl⟩ := calledName?_eq_some hn
  have hl := length_of_startsWithCall hs
  rw [String.length_toList] at hl
  simp only [List.length_map, List.length_take]
  omega

/-! ## All rules before the trigonometric calls -/

theorem functionCall_factorial_append {signs : List Char} (hs : ∀ c ∈ signs, c ∈ marks ∧ c ≠ '(')
    (hne : signs ≠ []) (text rest : List Char) :
    factorial.apply (functionCall.apply (text ++ signs ++ rest)) =
      factorial.apply (functionCall.apply text) ++ signs ++
        factorial.apply (functionCall.apply rest) := by
  induction signs generalizing text with
  | nil => exact absurd rfl hne
  | cons c signs ih =>
      obtain ⟨hc, ho⟩ := hs c (by simp)
      have hf := (functionCall_separates hc ho).apply_append functionCall_bounded
      have hg := (factorial_separates hc).apply_append factorial_bounded
      cases signs with
      | nil => simp [hf, hg]
      | cons d signs =>
          have := ih (fun e he => hs e (by simp_all)) (by simp) []
          simp only [List.nil_append] at this
          simp only [List.append_assoc, List.cons_append] at this ⊢
          rw [hf, hg, this]
          rfl

theorem powerSign_ne_nil (c : Char) : powerSign c ≠ [] := by
  unfold powerSign
  split <;> simp

theorem mem_powerSign {c d : Char} (h : d ∈ powerSign c) : d = '*' ∨ d = c := by
  unfold powerSign at h
  split at h <;> simp_all

theorem powerSign_of_mark {c : Char} (hc : c ∈ marks) (ho : c ≠ '(') :
    ∀ d ∈ powerSign c, d ∈ marks ∧ d ≠ '(' := by
  intro d hd
  rcases mem_powerSign hd with rfl | rfl
  · decide
  · exact ⟨hc, ho⟩

theorem beforeTrig_append {c : Char} (hc : asciiSign c ∈ marks) (ho : asciiSign c ≠ '(')
    (text rest : List Char) :
    beforeTrig (text ++ c :: rest) = beforeTrig text ++ powerSign (asciiSign c) ++ beforeTrig rest := by
  simp only [beforeTrig, List.map_append, List.map_cons,
    (percent_separates hc).apply_append percent_bounded, (pi_separates hc).apply_append pi_bounded,
    (euler_separates hc).apply_append euler_bounded, List.flatMap_append, List.flatMap_cons]
  rw [← List.append_assoc]
  exact functionCall_factorial_append (powerSign_of_mark hc ho) (powerSign_ne_nil _) _ _

theorem beforeTrig_opening (text : List Char) : beforeTrig ('(' :: text) = '(' :: beforeTrig text := by
  have hm : '(' ∈ marks := by decide
  have hp : powerSign '(' = ['('] := by decide
  have ha : asciiSign '(' = '(' := by decide
  simp only [beforeTrig, List.map_cons, ha, (percent_separates hm).apply_cons,
    (pi_separates hm).apply_cons, (euler_separates hm).apply_cons, List.flatMap_cons, hp,
    List.singleton_append, (functionCall_opens hm).apply_cons, (factorial_separates hm).apply_cons]

end DeskCalculator.Canonical
