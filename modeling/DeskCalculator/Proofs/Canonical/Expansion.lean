import DeskCalculator.Proofs.Canonical.TrigCall
import Mathlib.Data.List.Forall2
import Mathlib.Data.Nat.Find

/-!
# What the expansion of calls is

The expansion of a text is given by its first call: the text before it stays, the argument and the
text behind it are expanded each for itself, and a call that is never closed only gets its full name.
The one pass over the text with its pending closings gives this and nothing else.
-/

namespace DeskCalculator.Canonical

open Parenthesis

/-! ## Calls of a text -/

/-- The word is the name of a trigonometric function, and no character of a word stands before it. -/
structure CallWord (before word : List Char) : Prop where
  starts : startsWord before.getLast? = true
  spelled : ∃ name ∈ trigNames, List.Forall₂ (fun letter c => spells letter c = true) name.toList word

/-- The first call of a text stands between these parts. -/
structure FirstCall (text before word rest : List Char) : Prop where
  parts : text = before ++ word ++ '(' :: rest
  call : CallWord before word
  first : ∀ b w r, text = b ++ w ++ '(' :: r → CallWord b w → before.length ≤ b.length

def NoCall (text : List Char) : Prop :=
  ∀ before word rest, text = before ++ word ++ '(' :: rest → ¬ CallWord before word

/-- A first parenthesis is closed behind the argument. -/
structure Closes (rest argument after : List Char) : Prop where
  parts : rest = argument ++ ')' :: after
  balanced : Balanced (ofText argument)

/-- The text expands to another, by its first call. -/
inductive Expands (mode : AngleMode) : (text expanded : List Char) → Prop
  | plain {text} : NoCall text → Expands mode text text
  | closed {text before word rest argument after a b} : FirstCall text before word rest →
      Closes rest argument after → Expands mode argument a → Expands mode after b →
      Expands mode text (before ++ (wrapping mode (word.map Char.toLower)).before ++ a ++
        (wrapping mode (word.map Char.toLower)).after ++ b)
  | unclosed {text before word rest b} : FirstCall text before word rest →
      (∀ argument after, ¬ Closes rest argument after) → Expands mode rest b →
      Expands mode text (before ++ openTrig (word.map Char.toLower) ++ b)

/-! ## The call at a place -/

theorem startsWithCall_iff {name text : List Char} : startsWithCall name text = true ↔
    ∃ word rest, text = word ++ '(' :: rest ∧
      List.Forall₂ (fun letter c => spells letter c = true) name word := by
  induction name generalizing text with
  | nil => cases text <;> simp [startsWithCall]
  | cons letter letters ih =>
      cases text with
      | nil => simp [startsWithCall]
      | cons c text =>
          simp only [startsWithCall, Bool.and_eq_true, ih]
          constructor
          · rintro ⟨hc, word, rest, rfl, hw⟩
            exact ⟨c :: word, rest, rfl, .cons hc hw⟩
          · rintro ⟨_, rest, ht, hw⟩
            obtain _ | ⟨hc, hw⟩ := hw
            obtain ⟨rfl, rfl⟩ := List.cons.inj ht
            exact ⟨hc, _, rest, rfl, hw⟩

theorem spells_parenthesis {name : String} (hn : name ∈ trigNames) :
    ∀ letter ∈ name.toList, spells letter '(' = false :=
  (trigNames_of_mark (by decide) name hn).2

theorem notMem_of_spells {letters word : List Char} {c : Char}
    (hl : ∀ letter ∈ letters, spells letter c = false)
    (hw : List.Forall₂ (fun letter c => spells letter c = true) letters word) : c ∉ word := by
  induction hw with
  | nil => simp
  | @cons letter d _ _ hs _ ih =>
      have hd : d ≠ c := by
        rintro rfl
        simp [hl letter (by simp)] at hs
      simp [hd.symm, ih fun l hm => hl l (by simp [hm])]

/-- The word of a call ends at the first parenthesis. -/
theorem takeWhile_word {word rest : List Char} (hw : '(' ∉ word) :
    (word ++ '(' :: rest).takeWhile (· != '(') = word := by
  have h : ∀ c ∈ word, (c != '(') = true := by
    intro c hc
    simpa using ne_of_mem_of_not_mem hc hw
  rw [List.takeWhile_append_of_pos h, List.takeWhile_cons_of_neg (by decide), List.append_nil]

section

variable {before word rest : List Char}

theorem CallWord.calledName (h : CallWord before word) :
    calledName? trigNames before.getLast? (word ++ '(' :: rest) = some (word.map Char.toLower) := by
  obtain ⟨n, hn, hw⟩ := h.spelled
  cases hc : calledName? trigNames before.getLast? (word ++ '(' :: rest) with
  | none =>
      simp only [calledName?, h.starts, if_true, Option.map_eq_none_iff, List.find?_eq_none] at hc
      exact absurd (startsWithCall_iff.mpr ⟨word, rest, rfl, hw⟩) (hc n hn)
  | some name =>
      obtain ⟨-, m, hm, hs, rfl⟩ := calledName?_eq_some hc
      obtain ⟨word', rest', ht, hw'⟩ := startsWithCall_iff.mp hs
      have hword := congrArg (List.takeWhile (· != '(')) ht
      rw [takeWhile_word (notMem_of_spells (spells_parenthesis hn) hw),
        takeWhile_word (notMem_of_spells (spells_parenthesis hm) hw')] at hword
      subst hword
      rw [← String.length_toList, hw'.length_eq, List.take_left]

theorem exists_callWord {text name : List Char}
    (h : calledName? trigNames before.getLast? text = some name) :
    ∃ word rest, text = word ++ '(' :: rest ∧ CallWord before word := by
  obtain ⟨hs, n, hn, hc, -⟩ := calledName?_eq_some h
  obtain ⟨word, rest, rfl, hw⟩ := startsWithCall_iff.mp hc
  exact ⟨word, rest, rfl, hs, n, hn, hw⟩

end

/-- Each text has a first call or none. -/
theorem noCall_or_firstCall (text : List Char) :
    NoCall text ∨ ∃ before word rest, FirstCall text before word rest := by
  classical
  by_cases h : ∃ n before word rest, text = before ++ word ++ '(' :: rest ∧ CallWord before word ∧
    before.length = n
  · obtain ⟨before, word, rest, ht, hw, hl⟩ := Nat.find_spec h
    refine .inr ⟨before, word, rest, ht, hw, fun b w r ht' hw' => ?_⟩
    rw [hl]
    exact Nat.find_min' h ⟨b, w, r, ht', hw', rfl⟩
  · exact .inl fun before word rest ht hw => h ⟨_, before, word, rest, ht, hw, rfl⟩

/-! ## Texts without calls -/

/-- A parenthesis of no call at the bottom of the stack closes as one that was never opened. -/
theorem expandWithin_bottom {mode : AngleMode} {previous : Option Char} {opened : List (List Char)}
    (text : List Char) :
    expandWithin mode 0 previous (opened ++ [[')']]) text =
      expandWithin mode 0 previous opened text := by
  induction previous, text using call_induction generalizing opened with
  | nil => rfl
  | step previous c rest hc ih =>
      by_cases ho : c = '('
      · subst ho
        rw [expandWithin_opening, expandWithin_opening, ← List.cons_append, ih]
      by_cases hcl : c = ')'
      · subst hcl
        cases opened with
        | nil =>
            rw [List.nil_append, expandWithin_closing, expandWithin_unmatched]
            rfl
        | cons w opened => rw [List.cons_append, expandWithin_closing, expandWithin_closing, ih]
      · rw [expandWithin_other hc ho hcl, expandWithin_other hc ho hcl, ih]
  | call previous word rest name hc hl hw hname ih =>
      rw [expandWithin_call hc hl, expandWithin_call hc hl, ← List.cons_append, ih]

/-- What stands before the first call stays as it is. -/
theorem expandWithin_noCall {mode : AngleMode} {previous : Option Char} {before rest : List Char}
    (h : ∀ b c r, before = b ++ c :: r →
      calledName? trigNames (b.getLast?.or previous) (c :: (r ++ rest)) = none) :
    expandWithin mode 0 previous [] (before ++ rest) =
      before ++ expandWithin mode 0 (before.getLast?.or previous) [] rest := by
  induction before generalizing previous with
  | nil => rfl
  | cons c before ih =>
      have hc : calledName? trigNames previous (c :: (before ++ rest)) = none := h [] c before rfl
      have hl : (c :: before).getLast?.or previous = before.getLast?.or (some c) := by
        cases before <;> simp [List.getLast?_cons]
      have ih := @ih (some c) fun b d r hb => by
        have := h (c :: b) d r (by rw [hb, List.cons_append])
        have hl : (c :: b).getLast?.or previous = b.getLast?.or (some c) := by
          cases b <;> simp [List.getLast?_cons]
        rwa [hl] at this
      rw [List.cons_append, List.cons_append, hl, ← ih]
      by_cases ho : c = '('
      · subst ho
        rw [expandWithin_opening]
        exact congrArg _ (@expandWithin_bottom mode _ [] _)
      by_cases hcl : c = ')'
      · subst hcl
        rw [expandWithin_unmatched]
      · rw [expandWithin_other hc ho hcl]

/-! ## Where a call closes -/

theorem exists_closes {level offset : Nat} {text : List Char}
    (h : closingOffset? level text = some offset) :
    ∃ argument after, text = argument ++ ')' :: after ∧ argument.length = offset ∧
      openAfter level (ofText argument) = some 0 := by
  induction text generalizing level offset with
  | nil => cases h
  | cons c text ih =>
      by_cases ho : c = '('
      · subst ho
        obtain ⟨o, ho, rfl⟩ := Option.map_eq_some_iff.mp (by simpa [closingOffset?] using h)
        obtain ⟨argument, after, rfl, rfl, hb⟩ := ih ho
        exact ⟨'(' :: argument, after, rfl, rfl, hb⟩
      by_cases hc : c = ')'
      · subst hc
        cases level with
        | zero =>
            obtain rfl : 0 = offset := by simpa [closingOffset?] using h
            exact ⟨[], text, rfl, rfl, rfl⟩
        | succ level =>
            obtain ⟨o, ho, rfl⟩ := Option.map_eq_some_iff.mp (by simpa [closingOffset?] using h)
            obtain ⟨argument, after, rfl, rfl, hb⟩ := ih ho
            exact ⟨')' :: argument, after, rfl, rfl, hb⟩
      · obtain ⟨o, hr, rfl⟩ := Option.map_eq_some_iff.mp (by simpa [closingOffset?, ho, hc] using h)
        obtain ⟨argument, after, rfl, rfl, hb⟩ := ih hr
        exact ⟨c :: argument, after, rfl, rfl, by rwa [ofText_other ho hc]⟩

theorem Closes.closingOffset {rest argument after : List Char} (h : Closes rest argument after) :
    ∃ offset, closingOffset? 0 rest = some offset := by
  have hopen : openAfter 1 (ofText (argument ++ [')'])) = some 0 := by
    rw [ofText_append, openAfter_append, h.balanced.openAfter]
    rfl
  obtain ⟨offset, ho⟩ := @exists_closingOffset 0 0 0 _ hopen (by omega)
  have := closingOffset?_append ho after
  rw [List.append_assoc] at this
  exact ⟨offset, by rwa [h.parts]⟩

theorem closingOffset_eq_none_iff {rest : List Char} :
    closingOffset? 0 rest = none ↔ ∀ argument after, ¬ Closes rest argument after := by
  refine ⟨fun h argument after hc => ?_, fun h => ?_⟩
  · obtain ⟨offset, ho⟩ := hc.closingOffset
    simp [h] at ho
  · cases ho : closingOffset? 0 rest with
    | none => rfl
    | some offset =>
        obtain ⟨argument, after, ht, -, hb⟩ := exists_closes ho
        exact absurd ⟨ht, hb⟩ (h argument after)

/-! ## The three forms of a text -/

section

variable {mode : AngleMode} {text before word rest argument after : List Char}

theorem calledName_before (h : FirstCall text before word rest) {b r : List Char} {c : Char}
    (hb : before = b ++ c :: r) :
    calledName? trigNames b.getLast? (c :: (r ++ (word ++ '(' :: rest))) = none := by
  cases hc : calledName? trigNames b.getLast? (c :: (r ++ (word ++ '(' :: rest))) with
  | none => rfl
  | some name =>
      obtain ⟨w, rest', ht, hw⟩ := exists_callWord hc
      have hle := h.first b w rest' (by rw [h.parts, hb, List.append_assoc b w, ← ht]; simp) hw
      simp only [hb, List.length_append, List.length_cons] at hle
      omega

theorem expandTrig_noCall (h : NoCall text) : expandTrig mode text = text := by
  have := @expandWithin_noCall mode none text [] fun b c r ht => by
    cases hc : calledName? trigNames (b.getLast?.or none) (c :: (r ++ [])) with
    | none => rfl
    | some name =>
        rw [Option.or_none] at hc
        obtain ⟨w, rest, hr, hw⟩ := exists_callWord hc
        exact absurd hw (h b w rest (by rw [ht, List.append_assoc, ← hr, List.append_nil]))
  rw [List.append_nil] at this
  rw [expandTrig_eq_expandWithin, this, expandWithin, List.append_nil]

theorem expandTrig_firstCall (h : FirstCall text before word rest) : expandTrig mode text =
    before ++ ((callWrapping mode (word.map Char.toLower) rest).before ++
      expandWithin mode 0 (some '(') [(callWrapping mode (word.map Char.toLower) rest).after] rest) := by
  have hb := @expandWithin_noCall mode none before (word ++ '(' :: rest) fun b c r hb => by
    rw [Option.or_none, calledName_before h hb]
  rw [expandTrig_eq_expandWithin, h.parts, List.append_assoc, hb, Option.or_none,
    expandWithin_call h.call.calledName (List.length_map _).symm]

theorem expandTrig_closed (h : FirstCall text before word rest) (hc : Closes rest argument after) :
    expandTrig mode text = before ++ (wrapping mode (word.map Char.toLower)).before ++
      expandTrig mode argument ++
      (wrapping mode (word.map Char.toLower)).after ++ expandTrig mode after := by
  obtain ⟨offset, ho⟩ := hc.closingOffset
  rw [expandTrig_firstCall h]
  simp only [callWrapping, ho]
  rw [hc.parts, expandWithin_argument _ hc.balanced]
  simp only [List.append_assoc]

theorem expandTrig_unclosed (h : FirstCall text before word rest)
    (hc : ∀ argument after, ¬ Closes rest argument after) :
    expandTrig mode text = before ++ openTrig (word.map Char.toLower) ++ expandTrig mode rest := by
  rw [expandTrig_firstCall h]
  simp only [callWrapping, closingOffset_eq_none_iff.mpr hc]
  rw [← List.nil_append [[')']], expandWithin_bottom, expandWithin_after_mark (by decide),
    ← expandTrig_eq_expandWithin, List.append_assoc]

theorem FirstCall.length_lt (h : FirstCall text before word rest) : rest.length < text.length := by
  simp only [h.parts, List.length_append, List.length_cons]
  omega

theorem Closes.length_lt (h : Closes rest argument after) :
    argument.length < rest.length ∧ after.length < rest.length := by
  simp only [h.parts, List.length_append, List.length_cons]
  omega

end

/-! ## Every text -/

theorem expands_expandTrig (mode : AngleMode) (text : List Char) :
    Expands mode text (expandTrig mode text) := by
  induction hn : text.length using Nat.strongRecOn generalizing text with
  | _ n ih =>
      subst hn
      rcases noCall_or_firstCall text with h | ⟨before, word, rest, h⟩
      · rw [expandTrig_noCall h]
        exact .plain h
      have hr := h.length_lt
      by_cases hc : ∃ argument after, Closes rest argument after
      · obtain ⟨argument, after, hc⟩ := hc
        obtain ⟨ha, hf⟩ := hc.length_lt
        rw [expandTrig_closed h hc]
        exact .closed h hc (ih _ (Nat.lt_trans ha hr) argument rfl) (ih _ (Nat.lt_trans hf hr) after rfl)
      · simp only [not_exists] at hc
        rw [expandTrig_unclosed h hc]
        exact .unclosed h hc (ih _ hr rest rfl)

/-- The one pass over a text gives the expansion, and a text has no other. -/
theorem expandTrig_eq_iff (mode : AngleMode) (text expanded : List Char) :
    expandTrig mode text = expanded ↔ Expands mode text expanded := by
  refine ⟨fun h => h ▸ expands_expandTrig mode text, fun h => ?_⟩
  induction h with
  | plain h => exact expandTrig_noCall h
  | closed h hc _ _ iha ihb => rw [expandTrig_closed h hc, iha, ihb]
  | unclosed h hc _ ihb => rw [expandTrig_unclosed h hc, ihb]

example :
    expandTrig .degrees "2*Sin(acos(.5)".toList = "2*math.sin((math.acos(.5)*180/math.pi)".toList := by
  decide

end DeskCalculator.Canonical
