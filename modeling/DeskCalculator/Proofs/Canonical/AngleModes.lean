import DeskCalculator.Proofs.Canonical.FunctionCall

/-!
# What the angle mode decides

In radians a trigonometric name before a parenthesis is written with its full name, and nothing else
changes. In degrees a call that closes is written longer, and all else is written as in radians. So the
two texts are the same just if no call closes.
-/

namespace DeskCalculator.Canonical

open Character Rule

/-! ## Radians -/

/-- Takes a trigonometric name with its parenthesis and writes the full name. -/
def trigName : Rule := fun previous text =>
  (calledName? trigNames previous text).map fun name => ⟨name.length + 1, openTrig name⟩

/-- The rule takes the name of a call with its parenthesis, and nothing else. -/
theorem trigName_eq_some_iff {before text : List Char} {r : Replacement} :
    trigName before.getLast? text = some r ↔
    ∃ word rest, text = word ++ '(' :: rest ∧ CallWord before word ∧
      r = ⟨word.length + 1, "math.".toList ++ word.map Char.toLower ++ ['(']⟩ := by
  constructor
  · intro h
    obtain ⟨name, hc, rfl⟩ := Option.map_eq_some_iff.mp h
    obtain ⟨word, rest, rfl, hw⟩ := exists_callWord hc
    obtain rfl := Option.some.inj (hc.symm.trans hw.calledName)
    exact ⟨word, rest, rfl, hw, by rw [List.length_map]; rfl⟩
  · rintro ⟨word, rest, rfl, hw, rfl⟩
    rw [trigName, hw.calledName, Option.map_some, List.length_map]
    rfl

theorem trigName_call {previous : Option Char} {word rest name : List Char}
    (hc : calledName? trigNames previous (word ++ '(' :: rest) = some name)
    (hl : word.length = name.length) :
    trigName.applyFrom 0 previous (word ++ '(' :: rest) =
      openTrig name ++ trigName.applyFrom 0 (some '(') rest := by
  have hr : trigName previous (word ++ '(' :: rest) = some ⟨name.length + 1, openTrig name⟩ := by
    simp [trigName, hc]
  cases word with
  | nil => simp [calledName?_opening] at hc
  | cons c word =>
      have htaken := applyFrom_length trigName c (word ++ ['(']) rest
      have hlast : (c :: (word ++ ['('])).getLast? = some '(' := by simp [List.getLast?_cons]
      rw [List.append_assoc, List.singleton_append, List.length_append, hlast] at htaken
      rw [List.cons_append] at hr ⊢
      rw [applyFrom_some hr, ← hl]
      exact congrArg (openTrig name ++ ·) htaken

/-- Every parenthesis is closed as it is. -/
theorem expandWithin_radians {previous : Option Char} {opened : List (List Char)} (text : List Char)
    (ho : ∀ w ∈ opened, w = [')']) :
    expandWithin .radians 0 previous opened text = trigName.applyFrom 0 previous text := by
  induction previous, text using call_induction generalizing opened with
  | nil => rfl
  | step previous c rest hc ih =>
      have hnone : trigName previous (c :: rest) = none := by simp [trigName, hc]
      rw [applyFrom_none hnone]
      by_cases hopen : c = '('
      · subst hopen
        rw [expandWithin_opening, ih (by simpa using ho)]
      by_cases hcl : c = ')'
      · subst hcl
        cases opened with
        | nil => rw [expandWithin_unmatched, ih ho]
        | cons w opened =>
            obtain rfl := ho w (by simp)
            rw [expandWithin_closing, ih fun w hw => ho w (by simp [hw]), List.singleton_append]
      · rw [expandWithin_other hc hopen hcl, ih ho]
  | call previous word rest name hc hl hw hname ih =>
      have hwrap : callWrapping .radians name rest = ⟨openTrig name, [')']⟩ := by
        unfold callWrapping
        split <;> rfl
      rw [expandWithin_call hc hl, hwrap, trigName_call hc hl, ih (by simpa using ho)]

theorem expandTrig_radians (text : List Char) : expandTrig .radians text = trigName.apply text := by
  rw [expandTrig_eq_expandWithin, expandWithin_radians text (by simp), Rule.apply]

/-! ## Calls that close -/

/-- A call of a trigonometric function stands in the text, and its parenthesis is closed. -/
def HasClosedCall (text : List Char) : Prop :=
  ∃ before word rest argument after, text = before ++ word ++ '(' :: rest ∧ CallWord before word ∧
    Closes rest argument after

section

variable {text before word rest : List Char}

theorem NoCall.not_hasClosedCall (h : NoCall text) : ¬ HasClosedCall text := by
  rintro ⟨before, word, rest, argument, after, ht, hw, -⟩
  exact h before word rest ht hw

theorem startsWord_behind_opening (front back : List Char) :
    startsWord (front ++ '(' :: back).getLast? = startsWord back.getLast? := by
  rcases List.eq_nil_or_concat back with rfl | ⟨back, c, rfl⟩
  · rw [List.getLast?_concat]
    decide
  · simp [List.concat_eq_append, List.getLast?_append, List.getLast?_cons]

theorem callWord_behind_opening {front back : List Char} :
    CallWord (front ++ '(' :: back) word ↔ CallWord back word := by
  refine ⟨fun h => ⟨?_, h.spelled⟩, fun h => ⟨?_, h.spelled⟩⟩
  · rw [← startsWord_behind_opening front]
    exact h.starts
  · rw [startsWord_behind_opening]
    exact h.starts

theorem CallWord.opening_notMem (h : CallWord before word) : '(' ∉ word :=
  fun hm => absurd (h.isWord.2 _ hm) (by decide)

/-- The word of a call is all that stands before the first parenthesis. -/
theorem CallWord.eq_of_append {before' word' rest' : List Char} (h : CallWord before word)
    (h' : CallWord before' word') (ht : word ++ '(' :: rest = word' ++ '(' :: rest') :
    word = word' ∧ rest = rest' := by
  have hword := congrArg (List.takeWhile (· != '(')) ht
  rw [takeWhile_word h.opening_notMem, takeWhile_word h'.opening_notMem] at hword
  subst hword
  exact ⟨rfl, (List.cons.inj (List.append_cancel_left ht)).2⟩

/-- A call does not start within the word of another, so it stands behind that one's parenthesis. -/
theorem CallWord.exists_behind {x word' rest' : List Char} (h : CallWord before word)
    (h' : CallWord (before ++ x) word') (hne : x ≠ [])
    (ht : word ++ '(' :: rest = x ++ (word' ++ '(' :: rest')) :
    ∃ y, x = word ++ '(' :: y ∧ rest = y ++ word' ++ '(' :: rest' := by
  have hlast : x.getLast hne ∉ word := fun hm => by
    have hs := h'.starts
    rw [List.getLast?_append, List.getLast?_eq_some_getLast hne] at hs
    simp [startsWord, h.isWord.2 _ hm] at hs
  rcases List.append_eq_append_iff.mp ht with ⟨y, hx, hy⟩ | ⟨y, hw, -⟩
  · cases y with
    | nil =>
        rw [List.append_nil] at hx
        exact absurd (hx ▸ List.getLast_mem hne) hlast
    | cons c y =>
        obtain ⟨rfl, hr⟩ := List.cons.inj hy
        exact ⟨y, hx, by rw [List.append_assoc]; exact hr⟩
  · exact absurd (hw ▸ List.mem_append_left y (List.getLast_mem hne)) hlast

/-- Behind a first call that does not close, the closed calls are those of the rest. -/
theorem hasClosedCall_iff_of_unclosed (h : FirstCall text before word rest)
    (hc : ∀ argument after, ¬ Closes rest argument after) : HasClosedCall text ↔ HasClosedCall rest := by
  constructor
  · rintro ⟨b, w, r, argument, after, ht, hw, hclose⟩
    have hle := h.first b w r ht hw
    have hparts := h.parts.symm.trans ht
    rw [List.append_assoc, List.append_assoc] at hparts
    obtain ⟨x, rfl⟩ : ∃ x, b = before ++ x := by
      rcases List.append_eq_append_iff.mp hparts with ⟨x, hb, -⟩ | ⟨x, hb, -⟩
      · exact ⟨x, hb⟩
      · rw [hb, List.length_append] at hle
        obtain rfl : x = [] := List.eq_nil_of_length_eq_zero (by omega)
        exact ⟨[], by rw [hb, List.append_nil, List.append_nil]⟩
    rw [List.append_assoc, List.append_cancel_left_eq] at hparts
    by_cases hx : x = []
    · subst hx
      obtain ⟨-, rfl⟩ := h.call.eq_of_append hw hparts
      exact absurd hclose (hc argument after)
    · obtain ⟨y, rfl, hr⟩ := h.call.exists_behind hw hx hparts
      rw [← List.append_assoc] at hw
      exact ⟨y, w, r, argument, after, hr, callWord_behind_opening.mp hw, hclose⟩
  · rintro ⟨b, w, r, argument, after, rfl, hw, hclose⟩
    refine ⟨before ++ word ++ '(' :: b, w, r, argument, after, ?_,
      callWord_behind_opening.mpr hw, hclose⟩
    simp [h.parts]

end

/-! ## Degrees -/

theorem length_wrapping (name : List Char) :
    (wrapping .radians name).before.length < (wrapping .degrees name).before.length ∧
      (wrapping .radians name).after.length < (wrapping .degrees name).after.length := by
  unfold wrapping
  cases name.head? == some 'a' <;> simp

/-- A text that closes a call is longer in degrees, and any other text is the same. -/
theorem degrees_of_expands {text expanded : List Char} (h : Expands .radians text expanded) :
    (HasClosedCall text → expanded.length < (expandTrig .degrees text).length) ∧
      (¬ HasClosedCall text → expandTrig .degrees text = expanded) := by
  have hle {text expanded : List Char}
      (ih : (HasClosedCall text → expanded.length < (expandTrig .degrees text).length) ∧
        (¬ HasClosedCall text → expandTrig .degrees text = expanded)) :
      expanded.length ≤ (expandTrig .degrees text).length := by
    by_cases hcall : HasClosedCall text
    · exact Nat.le_of_lt (ih.1 hcall)
    · exact Nat.le_of_eq (congrArg List.length (ih.2 hcall)).symm
  induction h with
  | plain h => exact ⟨fun hcall => absurd hcall h.not_hasClosedCall, fun _ => expandTrig_noCall h⟩
  | @closed text before word rest argument after a b hf hc _ _ iha ihb =>
      have hcall : HasClosedCall text := ⟨before, word, rest, argument, after, hf.parts, hf.call, hc⟩
      refine ⟨fun _ => ?_, fun hnot => absurd hcall hnot⟩
      have ha := hle iha
      have hb := hle ihb
      obtain ⟨hbefore, hafter⟩ := length_wrapping (word.map Char.toLower)
      rw [expandTrig_closed hf hc]
      simp only [List.length_append]
      omega
  | unclosed hf hc _ ih =>
      rw [hasClosedCall_iff_of_unclosed hf hc, expandTrig_unclosed hf hc]
      refine ⟨fun hcall => ?_, fun hnot => by rw [ih.2 hnot]⟩
      simpa only [List.length_append, Nat.add_lt_add_iff_left] using ih.1 hcall

theorem expandTrig_degrees_eq_iff (text : List Char) :
    expandTrig .degrees text = expandTrig .radians text ↔ ¬ HasClosedCall text := by
  obtain ⟨hlonger, hsame⟩ := degrees_of_expands (expands_expandTrig .radians text)
  refine ⟨fun h hcall => ?_, hsame⟩
  exact absurd (congrArg List.length h) (Nat.ne_of_gt (hlonger hcall))

/-! ## The mode of a text -/

/-- The canonical texts of the two modes are the same just if no trigonometric call is closed in the text
that the other rules leave; and in radians each name of a call is written in full, and nothing else
changes. -/
theorem text_degrees_eq_radians_iff :
    (∀ raw, text .degrees raw = text .radians raw ↔ ¬ HasClosedCall (beforeTrig raw)) ∧
    (∀ text, expandTrig .radians text = trigName.apply text) ∧
    ∀ before text r, trigName before.getLast? text = some r ↔ ∃ word rest, text = word ++ '(' :: rest ∧
      CallWord before word ∧ r = ⟨word.length + 1, "math.".toList ++ word.map Char.toLower ++ ['(']⟩ :=
  ⟨fun raw => expandTrig_degrees_eq_iff (beforeTrig raw), expandTrig_radians,
    fun _ _ _ => trigName_eq_some_iff⟩

end DeskCalculator.Canonical
