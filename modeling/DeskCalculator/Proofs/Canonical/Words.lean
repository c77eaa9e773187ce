import DeskCalculator.Proofs.Canonical.Separators
import DeskCalculator.Vocabulary

/-!
# Names before a parenthesis

A name on the keypad, in capital or small letters, is a word of its own before its parenthesis. Only
the rule for functions touches it, and a trigonometric name stays until the calls are expanded.
-/

namespace DeskCalculator.Canonical

open Character Rule

/-! ## Words of letters -/

/-- The text has only letters of ASCII. -/
abbrev IsLetters (word : List Char) : Prop := ∀ c ∈ word, c.isAlpha = true

theorem isLetters_of_map {word : List Char} {name : String} (hn : IsLetters name.toList)
    (h : word.map Char.toLower = name.toList) : IsLetters word := by
  intro c hc
  exact isAlpha_of_toLower (hn _ (h ▸ List.mem_map_of_mem hc))

theorem not_isPiLetter_of_lt {c : Char} (h : c.toNat < 128) : isPiLetter c = false := by
  cases hp : isPiLetter c with
  | false => rfl
  | true =>
      simp only [isPiLetter, Bool.or_eq_true, beq_iff_eq] at hp
      rcases hp with (rfl | rfl) | rfl <;> exact absurd h (by decide)

theorem spells_of_lt {letter c : Char} (h : c.toNat < 128) :
    spells letter c = (c.toLower == letter) := by
  have hs : (c == 'ſ') = false := by
    simp only [beq_eq_false_iff_ne, ne_eq]
    rintro rfl
    exact absurd h (by decide)
  simp [spells, hs]

theorem isWord_of_spells {letter c : Char} (hl : letter.isAlpha = true) (h : spells letter c = true) :
    isWord c = true := by
  simp only [spells, Bool.or_eq_true, Bool.and_eq_true, beq_iff_eq] at h
  rcases h with rfl | ⟨-, rfl⟩
  · exact isWord_of_isAlpha (isAlpha_of_toLower hl)
  · decide +kernel

theorem isWord_of_isPiLetter {c : Char} (h : isPiLetter c = true) : isWord c = true := by
  simp only [isPiLetter, Bool.or_eq_true, beq_iff_eq] at h
  rcases h with (rfl | rfl) | rfl <;> decide +kernel

/-- The rule takes a word for the constant. -/
theorem pi_eq_some {previous : Option Char} {text : List Char} {r : Replacement}
    (h : pi previous text = some r) :
    ∃ word rest, text = word ++ rest ∧ r = ⟨word.length, "math.pi".toList⟩ ∧ word ≠ [] ∧
      ∀ c ∈ word, isWord c = true := by
  unfold pi at h
  split at h
  · cases h
  rename_i c rest
  split at h
  · rename_i hc
    obtain rfl := Option.some.inj h
    exact ⟨[c], rest, rfl, rfl, List.cons_ne_nil _ _, by simpa using isWord_of_isPiLetter hc⟩
  split at h
  · cases h
  rename_i d rest
  split at h
  · rename_i hc
    obtain rfl := Option.some.inj h
    simp only [Bool.and_eq_true] at hc
    refine ⟨[c, d], rest, rfl, rfl, List.cons_ne_nil _ _, ?_⟩
    simpa using ⟨isWord_of_spells rfl hc.1.1.2, isWord_of_spells rfl hc.1.2⟩
  · cases h

theorem euler_eq_some {previous : Option Char} {text : List Char} {r : Replacement}
    (h : euler previous text = some r) :
    ∃ rest, text = 'e' :: rest ∧ r = ⟨1, "math.e".toList⟩ := by
  unfold euler at h
  split at h
  · cases h
  rename_i c rest
  split at h
  · rename_i hc
    simp only [Bool.and_eq_true, beq_iff_eq] at hc
    obtain ⟨⟨-, rfl⟩, -⟩ := hc
    exact ⟨rest, rfl, (Option.some.inj h).symm⟩
  · cases h

theorem signs_of_isLetters {word : List Char} (hw : IsLetters word) :
    word.map asciiSign = word ∧ word.flatMap powerSign = word := by
  induction word with
  | nil => exact ⟨rfl, rfl⟩
  | cons c word ih =>
      obtain ⟨hs, hp⟩ := ih fun d hd => hw d (by simp [hd])
      have hc := hw c (by simp)
      have hsign : asciiSign c = c := by
        unfold asciiSign
        split <;> first | rfl | cases hc
      have hpower : powerSign c = [c] := by
        have : c ≠ '^' := by
          rintro rfl
          cases hc
        simp [powerSign, this]
      simp [hs, hp, hsign, hpower]

/-! ## Called names -/

theorem startsWithCall_word {name word : List Char} (hn : '(' ∉ name) (hw : IsLetters word)
    (rest : List Char) :
    startsWithCall name (word ++ '(' :: rest) = (word.map Char.toLower == name) := by
  induction name generalizing word with
  | nil =>
      cases word with
      | nil => rfl
      | cons c word =>
          have hc : c ≠ '(' := by
            rintro rfl
            exact absurd (hw '(' (by simp)) (by decide)
          simp [startsWithCall, hc]
  | cons letter letters ih =>
      simp only [List.mem_cons, not_or] at hn
      cases word with
      | nil =>
          have hs : spells letter '(' = false := by
            rw [spells_of_lt (by decide)]
            simpa using hn.1
          simp [startsWithCall, hs]
      | cons c word =>
          have hc := lt_of_isAlpha (hw c (by simp))
          have ih := @ih word hn.2 fun d hd => hw d (by simp [hd])
          simp [startsWithCall, spells_of_lt hc, ih]

theorem calledName?_word {names : List String} {name : String} {word : List Char} (hn : name ∈ names)
    (hp : ∀ n ∈ names, '(' ∉ n.toList) (hl : IsLetters word) (hw : word.map Char.toLower = name.toList)
    (rest : List Char) : calledName? names none (word ++ '(' :: rest) = some name.toList := by
  have hf : names.find? (fun n => startsWithCall n.toList (word ++ '(' :: rest)) = some name := by
    cases hf : names.find? (fun n => startsWithCall n.toList (word ++ '(' :: rest)) with
    | none =>
        have := List.find?_eq_none.mp hf name hn
        simp [startsWithCall_word (hp name hn) hl, hw] at this
    | some n =>
        have hs :=
          List.find?_some (p := fun n : String => startsWithCall n.toList (word ++ '(' :: rest)) hf
        simp only [startsWithCall_word (hp n (List.mem_of_find?_eq_some hf)) hl, hw, beq_iff_eq] at hs
        rw [String.toList_inj.mp hs]
  have hlen : name.length = word.length := by
    rw [← String.length_toList, ← hw, List.length_map]
  simp only [calledName?, startsWord, Option.any_none, Bool.not_false, if_true, hf, Option.map_some,
    hlen, List.take_left, hw]

theorem calledName?_word_eq_none {names : List String} {previous : Option Char} {word : List Char}
    (hp : ∀ n ∈ names, '(' ∉ n.toList) (hl : IsLetters word)
    (hw : ∀ n ∈ names, word.map Char.toLower ≠ n.toList) (rest : List Char) :
    calledName? names previous (word ++ '(' :: rest) = none := by
  cases hc : calledName? names previous (word ++ '(' :: rest) with
  | none => rfl
  | some name =>
      obtain ⟨-, n, hm, hs, -⟩ := calledName?_eq_some hc
      rw [startsWithCall_word (hp n hm) hl] at hs
      exact absurd (by simpa using hs) (hw n hm)

/-! ## Names on the keypad -/

/-- The name of the function on the keypad. -/
def typedName : NamedFunction → Option String
  | .sqrt => some "sqrt"
  | .ln => some "ln"
  | .log10 => some "log"
  | .exp => some "exp"
  | .abs => some "abs"
  | .floor => some "floor"
  | .ceil => some "ceil"
  | .sin => some "sin"
  | .cos => some "cos"
  | .tan => some "tan"
  | .asin => some "asin"
  | .acos => some "acos"
  | .atan => some "atan"
  | .factorial => none

/-- The word is the function's name on the keypad, in any letters of ASCII. -/
def IsTyped (f : NamedFunction) (word : List Char) : Prop :=
  ∃ n, typedName f = some n ∧ word.map Char.toLower = n.toList

def isTrig (f : NamedFunction) : Bool :=
  match f with
  | .sin | .cos | .tan | .asin | .acos | .atan => true
  | _ => false

/-- What stands for the name before the trigonometric calls are expanded. -/
def writtenName (f : NamedFunction) (word : List Char) : List Char :=
  if isTrig f then word else f.name.toList

theorem fullName_typedName {f : NamedFunction} {n : String} (h : typedName f = some n) :
    (n ∈ functionNames ↔ isTrig f = false) ∧ (isTrig f = false → fullName n = f.name) := by
  cases f <;> cases h <;> decide

theorem isLetters_of_names {n : String} (hn : n ∈ functionNames ++ trigNames) : IsLetters n.toList :=
  List.all_eq_true.mp (letters_of_names n hn).2

theorem opening_not_mem_names : ∀ n ∈ functionNames ++ trigNames, '(' ∉ n.toList := by decide

theorem typedName_mem {f : NamedFunction} {n : String} (h : typedName f = some n) :
    n ∈ functionNames ++ trigNames := by
  cases f <;> cases h <;> decide

theorem IsTyped.isLetters {f : NamedFunction} {word : List Char} (h : IsTyped f word) :
    IsLetters word := by
  obtain ⟨n, hn, hw⟩ := h
  exact isLetters_of_map (isLetters_of_names (typedName_mem hn)) hw

/-- A name has two letters or more and does not start like the constant. -/
theorem IsTyped.exists_cons {f : NamedFunction} {word : List Char} (h : IsTyped f word) :
    ∃ c d rest, word = c :: d :: rest ∧ spells 'p' c = false := by
  have hl := h.isLetters
  obtain ⟨n, hn, hw⟩ := h
  have hp : ∀ n ∈ functionNames ++ trigNames, 2 ≤ n.toList.length ∧ n.toList.head? ≠ some 'p' := by
    decide
  obtain ⟨hlen, hhead⟩ := hp n (typedName_mem hn)
  rw [← hw] at hlen hhead
  match word with
  | [] | [_] => simp at hlen
  | c :: d :: rest =>
      refine ⟨c, d, rest, rfl, ?_⟩
      rw [spells_of_lt (lt_of_isAlpha (hl c (by simp)))]
      simpa using hhead

/-! ## The rules at a name -/

section

variable {f : NamedFunction} {word : List Char} (h : IsTyped f word) (rest : List Char)
include h

theorem IsTyped.percent_quiet : Quiet percent none word rest := by
  refine .of_forall fun c hc previous after => ?_
  simp [percent, signRule, literalBefore?, isDecimalDigit_of_isAlpha (h.isLetters c hc)]

theorem IsTyped.pi_quiet : Quiet pi none word rest := by
  have hl := h.isLetters
  obtain ⟨c, d, word, rfl, hp⟩ := h.exists_cons
  refine .of_word ?_ (fun p e after hp he => ?_) hl
  · have hc := not_isPiLetter_of_lt (lt_of_isAlpha (hl c (by simp)))
    simp only [pi, List.cons_append, hc, hp, Bool.and_false, Bool.false_and, Bool.false_eq_true,
      if_false]
  · have he := not_isPiLetter_of_lt (lt_of_isAlpha he)
    have hs : startsWord (some p) = false := by simp [startsWord, isWord_of_isAlpha hp]
    cases after <;> simp only [pi, he, hs, Bool.false_and, Bool.false_eq_true, if_false]

theorem IsTyped.euler_quiet : Quiet euler none word rest := by
  have hl := h.isLetters
  obtain ⟨c, d, word, rfl, -⟩ := h.exists_cons
  refine .of_word ?_ (fun p e after hp _ => ?_) hl
  · have hd : endsWord (d :: (word ++ rest)) = false := by
      simp [endsWord, isWord_of_isAlpha (hl d (by simp))]
    simp only [euler, List.cons_append, hd, Bool.and_false, Bool.false_eq_true, if_false]
  · have hs : startsWord (some p) = false := by simp [startsWord, isWord_of_isAlpha hp]
    simp only [euler, hs, Bool.false_and, Bool.false_eq_true, if_false]

theorem IsTyped.functionCall_apply : functionCall.apply (word ++ '(' :: rest) =
    writtenName f word ++ '(' :: functionCall.apply rest := by
  have hl := h.isLetters
  have hm : '(' ∈ marks := by decide
  obtain ⟨n, hn, hw⟩ := h
  obtain ⟨hfull, hname⟩ := fullName_typedName hn
  have ho : ∀ n ∈ functionNames, '(' ∉ n.toList := fun n hn => opening_not_mem_names n (by simp [hn])
  by_cases hf : n ∈ functionNames
  · have hc := calledName?_word hf ho hl hw rest
    have ht := hfull.mp hf
    have hwritten : writtenName f word = (fullName n).toList := by simp [writtenName, ht, hname ht]
    have hr : functionCall none (word ++ ['('] ++ rest) =
        some ⟨n.toList.length + 1, (fullName n).toList ++ ['(']⟩ := by
      simp [functionCall, hc]
    have hlen : n.toList.length + 1 = (word ++ ['(']).length := by simp [← hw]
    have := apply_taken hr hlen (by simp)
    simpa [hwritten, (functionCall_opens hm).applyFrom] using this
  · have ht : isTrig f = true := by simpa [hfull] using hf
    have hwritten : writtenName f word = word := by simp [writtenName, ht]
    have hq : Quiet functionCall none word ('(' :: rest) := by
      cases word with
      | nil => trivial
      | cons c word =>
          refine .of_word ?_ (fun p e after hp _ => ?_) hl
          · have hnone : ∀ m ∈ functionNames, (c :: word).map Char.toLower ≠ m.toList := by
              intro m hm he
              exact hf (String.toList_inj.mp (hw.symm.trans he) ▸ hm)
            have hc := @calledName?_word_eq_none functionNames none (c :: word) ho hl hnone rest
            simpa [functionCall] using hc
          · simp [functionCall, calledName?, startsWord, isWord_of_isAlpha hp]
    rw [hwritten]
    exact hq.apply_append (functionCall_opens hm)

theorem IsTyped.factorial_writtenName : factorial.apply (writtenName f word) = writtenName f word := by
  have hl := h.isLetters
  have hq : factorial.apply word = word := by
    refine (Quiet.of_forall fun c hc previous after => ?_).apply
    simp [factorial, signRule, literalBefore?, isDecimalDigit_of_isAlpha (hl c hc)]
  unfold writtenName
  split
  · exact hq
  · cases f <;> decide

theorem IsTyped.beforeTrig_call :
    beforeTrig (word ++ '(' :: rest) = writtenName f word ++ '(' :: beforeTrig rest := by
  have hm : '(' ∈ marks := by decide
  have ha : asciiSign '(' = '(' := by decide
  have hp : powerSign '(' = ['('] := by decide
  obtain ⟨hsign, hpower⟩ := signs_of_isLetters h.isLetters
  simp only [beforeTrig, List.map_append, List.map_cons, ha, hsign,
    (h.percent_quiet _).apply_append (percent_separates hm).toOpens,
    (h.pi_quiet _).apply_append (pi_separates hm).toOpens,
    (h.euler_quiet _).apply_append (euler_separates hm).toOpens, List.flatMap_append, List.flatMap_cons,
    hp, hpower, List.singleton_append, h.functionCall_apply,
    (factorial_separates hm).apply_append factorial_bounded, h.factorial_writtenName]

end

end DeskCalculator.Canonical
